import DesignTokens.Proofs.Css.Derivation
import DesignTokens.Proofs.Text.Cutting
import DesignTokens.Proofs.Text.SpanOrder
import Mathlib.Data.List.Pairwise

/-!
Where the nodes of a tree stand. Every node has a span, the spans follow the order of the tree, and
a function is a group of components together with its brackets.
-/

namespace DesignTokens.Css

open DesignTokens.Text

theorem walk_cons (node : Node) (rest : List Node) :
    walk (node :: rest) = node :: (walk node.children ++ walk rest) := by
  rw [walk, Node.walk_eq, List.cons_append]

@[simp] theorem walk_nil : walk [] = [] := rfl

theorem enclose_span (opener : Token) (children : List Node) (span : Span) :
    (enclose opener children span).span = some span := by
  unfold enclose
  split <;> rfl

theorem enclose_children (opener : Token) (children : List Node) (span : Span) :
    (enclose opener children span).children = children := by
  unfold enclose
  split <;> rfl

theorem enclose_ne_leaf (opener : Token) (children : List Node) (span : Span) (leaf : Leaf)
    (place : Option Span) : enclose opener children span ≠ .leaf leaf place := by
  unfold enclose
  split <;> simp

theorem function_of_enclose {opener : Token} {children arguments : List Node} {span : Span}
    {name : String} {place : Option Span}
    (same : enclose opener children span = .function name arguments place) :
    opener = .function name ∧ children = arguments ∧ some span = place := by
  unfold enclose at same
  split at same
  · obtain ⟨rfl, rfl, rfl⟩ := Node.function.inj same
    exact ⟨rfl, rfl, rfl⟩
  · contradiction
  · contradiction

theorem Lexeme.leaf_ne_raw {lexeme : Lexeme} {leaf : Leaf} (read : lexeme.leaf = some leaf)
    (text : String) : leaf ≠ .raw text := by
  rintro rfl
  unfold Lexeme.leaf at read
  split at read <;> simp at read

/-- What each node adds to a list of spans: the span of the node or nothing, and for a raw value any
spans in their order inside it. -/
structure Contribution (contribute : Node → List Span) : Prop where
  plain : ∀ node span, node.span = some span →
    (∀ text place, node ≠ .leaf (.raw text) place) → contribute node = [] ∨ contribute node = [span]
  raw : ∀ first text, SpanOrder first (first + byteLength text) (contribute (rawNode first text))

theorem Contribution.around {contribute : Node → List Span} (sound : Contribution contribute)
    {node : Node} {first last start stop : Nat} (found : node.span = some ⟨start, stop⟩)
    (cooked : ∀ text place, node ≠ .leaf (.raw text) place) {below : List Span}
    (order : SpanOrder first last below) (before : start < first) (after : last ≤ stop)
    (filled : start < stop) : SpanOrder start stop (contribute node ++ below) := by
  rcases sound.plain node _ found cooked with none_ | one
  · rw [none_]
    exact order.mono (Nat.le_of_lt before) after
  · rw [one]
    exact order.around before after filled

/-- The spans of a tree are in the order of the tree, whatever its nodes add to them. -/
theorem Derives.spanOrder {contribute : Node → List Span} (sound : Contribution contribute)
    {offset : Nat} {components : List Component} {nodes : List Node}
    (derived : Derives offset components nodes) :
    SpanOrder offset (offset + byteLength (componentsText components))
      ((walk nodes).flatMap contribute) := by
  induction derived with
  | nil => exact .nil
  | skip plain following ih =>
    refine ih.mono (Nat.le_add_right _ _) ?_
    simp [Nat.add_assoc]
  | @leaf offset lexeme leaf components nodes plain filled read following ih =>
    have positive := byteLength_pos filled
    have cooked (text : String) (place : Option Span) :
        Node.leaf leaf (some ⟨offset, offset + byteLength lexeme.text⟩) ≠ .leaf (.raw text) place :=
      fun same => Lexeme.leaf_ne_raw read text (Node.leaf.inj same).1
    have childless : SpanOrder (offset + 1) (offset + 1) [] := .nil
    have self := sound.around rfl cooked childless (by omega) (by omega) (by omega)
    rw [walk_cons, List.flatMap_cons, componentsText_cons, byteLength_append, ← Nat.add_assoc,
      Component.text_token]
    rw [List.append_nil] at self
    exact self.append ih (by omega) (by omega)
  | @group offset bracket opener closer contents components nodes opens filled closes inside
      following insideIh ih =>
    have positive := byteLength_pos filled
    have length : byteLength (Component.group opener contents closer).text =
        byteLength opener.text + byteLength (componentsText contents) +
          byteLength (lexemeText closer.toList) := by
      rw [Component.text_group]
      simp [Nat.add_assoc]
    have cooked := enclose_ne_leaf opener.token (groupChildren opener contents)
      ⟨offset, offset + byteLength (Component.group opener contents closer).text⟩
    have self := sound.around (enclose_span _ _ _) (fun text => cooked (.raw text)) insideIh
      (by omega) (by omega) (by omega)
    rw [walk_cons, List.flatMap_cons, List.flatMap_append, enclose_children, ← List.append_assoc,
      componentsText_cons, byteLength_append, ← Nat.add_assoc]
    exact self.append ih (by omega) (by omega)
  | @raw offset value components nodes following ih =>
    have self := sound.raw offset (componentsText value)
    have childless : (rawNode offset (componentsText value)).children = [] := rfl
    rw [walk_cons, List.flatMap_cons, List.flatMap_append, childless, componentsText_append,
      byteLength_append, ← Nat.add_assoc]
    exact self.append ih (by omega) (by omega)
  | @rule offset command name header body components prelude nodes block named filled above below
      following aboveIh belowIh ih =>
    have positive := byteLength_pos filled
    simp only [componentsText_append, componentsText_cons, Component.text_token, byteLength_append,
      ← Nat.add_assoc] at belowIh ih ⊢
    have parts := aboveIh.append belowIh (by omega) (by omega)
    have self : SpanOrder offset _ (contribute (.atRule name prelude block (some ⟨offset,
        offset + byteLength command.text + byteLength (componentsText header) +
          byteLength (componentsText body)⟩)) ++ _) :=
      sound.around rfl (by simp) parts (by omega) (by omega) (by omega)
    rw [walk_cons, List.flatMap_cons, List.flatMap_append, Node.children, walk_append,
      List.flatMap_append, ← List.append_assoc]
    exact self.append ih (by omega) (by omega)

theorem Within.subset {component : Component} {components others : List Component}
    (within : Within component components) (kept : components ⊆ others) :
    Within component others := by
  cases within with
  | here member => exact .here (kept member)
  | inside member deeper => exact .inside (kept member) deeper

def FromGroup (name : String) (arguments : List Node) (span : Option Span)
    (components : List Component) : Prop :=
  ∃ opener contents closer, Within (.group opener contents closer) components ∧
    opener.token = .function name ∧ arguments = groupChildren opener contents ∧
    span = some (Component.group opener contents closer).span

theorem FromGroup.subset {name : String} {arguments : List Node} {span : Option Span}
    {components others : List Component} (known : FromGroup name arguments span components)
    (kept : components ⊆ others) : FromGroup name arguments span others := by
  obtain ⟨opener, contents, closer, within, same⟩ := known
  exact ⟨opener, contents, closer, within.subset kept, same⟩

theorem FromGroup.inside {name : String} {arguments : List Node} {span : Option Span}
    {contents : List Component} (known : FromGroup name arguments span contents)
    (opener : Lexeme) (closer : Option Lexeme) (rest : List Component) :
    FromGroup name arguments span (.group opener contents closer :: rest) := by
  obtain ⟨inner, below, ending, within, same⟩ := known
  exact ⟨inner, below, ending, .inside (List.mem_cons_self ..) within, same⟩

theorem Derives.function_group {offset : Nat} {components : List Component} {nodes : List Node}
    (derived : Derives offset components nodes)
    (placed : Contiguous offset (componentLexemes components)) {name : String}
    {arguments : List Node} {span : Option Span}
    (found : .function name arguments span ∈ walk nodes) :
    FromGroup name arguments span components := by
  induction derived with
  | nil => simp at found
  | skip plain following ih =>
    rw [contiguous_cons_components, Component.text_token] at placed
    exact (ih placed.2 found).subset (List.subset_cons_self _ _)
  | @leaf offset lexeme leaf components nodes plain filled read following ih =>
    rw [contiguous_cons_components, Component.text_token] at placed
    rw [walk_cons] at found
    have later : Node.function name arguments span ∈ walk nodes := by
      simpa [Node.children] using found
    exact (ih placed.2 later).subset (List.subset_cons_self _ _)
  | @group offset bracket opener closer contents components nodes opens filled closes inside
      following insideIh ih =>
    rw [contiguous_cons_components] at placed
    rw [walk_cons, enclose_children, List.mem_cons, List.mem_append] at found
    rcases found with self | below | later
    · obtain ⟨called, children, place⟩ := function_of_enclose self.symm
      refine ⟨opener, contents, closer, .here (List.mem_cons_self ..), called, children.symm, ?_⟩
      rw [← place, Component.span_eq placed.1]
    · have inner := (contiguous_group.1 placed.1).2.2.1
      exact (insideIh inner below).inside opener closer components
    · exact (ih placed.2 later).subset (List.subset_cons_self _ _)
  | @raw offset value components nodes following ih =>
    rw [componentLexemes_append, contiguous_append] at placed
    rw [walk_cons] at found
    have later : Node.function name arguments span ∈ walk nodes := by
      simpa [rawNode, Node.children] using found
    exact (ih placed.2 later).subset (List.subset_append_right _ _)
  | @rule offset command name header body components prelude nodes block named filled above below
      following aboveIh belowIh ih =>
    simp only [List.cons_append, List.append_assoc, contiguous_cons_components,
      componentLexemes_append, contiguous_append, Component.text_token] at placed
    simp only [componentsText_append, byteLength_append, ← Nat.add_assoc] at belowIh ih
    simp only [walk_cons, Node.children, walk_append, List.mem_cons, List.mem_append] at found
    obtain ⟨_, header_, body_, rest⟩ := placed
    rcases found with self | (upper | lower) | later
    · simp at self
    · exact (aboveIh header_ upper).subset (by intro; simp +contextual)
    · exact (belowIh body_ lower).subset (by intro; simp +contextual)
    · exact (ih rest later).subset (by intro; simp +contextual)

end DesignTokens.Css

import DesignTokens.Css.Tree
import DesignTokens.Proofs.Css.LexemeRun

/-!
Moving a text moves its tree. Lexemes, components and nodes that stand a number of bytes further on
are put together and read in the same way, and only their offsets differ.
-/

namespace DesignTokens.Css

open DesignTokens.Text

variable (offset : Nat)

mutual

def Component.shift : Component → Component
  | .token lexeme => .token (lexeme.shift offset)
  | .group opener contents closer =>
    .group (opener.shift offset) (shiftComponents contents)
      (closer.map fun lexeme => lexeme.shift offset)

def shiftComponents : List Component → List Component
  | [] => []
  | component :: rest => component.shift :: shiftComponents rest

end

theorem shiftComponents_eq (components : List Component) :
    shiftComponents offset components = components.map fun component => component.shift offset := by
  induction components with
  | nil => rfl
  | cons component rest ih => rw [shiftComponents, ih, List.map_cons]

mutual

def Node.shift : Node → Node
  | .leaf leaf span => .leaf leaf (span.map fun span => span.shift offset)
  | .function name children span =>
    .function name (shiftNodes children) (span.map fun span => span.shift offset)
  | .block bracket children span =>
    .block bracket (shiftNodes children) (span.map fun span => span.shift offset)
  | .atRule name prelude block span =>
    .atRule name (shiftNodes prelude) (shiftBlock block) (span.map fun span => span.shift offset)

def shiftNodes : List Node → List Node
  | [] => []
  | node :: rest => node.shift :: shiftNodes rest

def shiftBlock : Option Node → Option Node
  | none => none
  | some node => some node.shift

end

theorem shiftNodes_eq (nodes : List Node) :
    shiftNodes offset nodes = nodes.map fun node => node.shift offset := by
  induction nodes with
  | nil => rfl
  | cons node rest ih => rw [shiftNodes, ih, List.map_cons]

theorem shiftBlock_eq (block : Option Node) :
    shiftBlock offset block = block.map fun node => node.shift offset := by
  cases block <;> rfl

mutual

theorem Node.walk_shift (node : Node) :
    (node.shift offset).walk = node.walk.map fun node => node.shift offset := by
  match node with
  | .leaf leaf span => simp [Node.shift, Node.walk]
  | .function name children span => simp [Node.shift, Node.walk, walk_shift children]
  | .block bracket children span => simp [Node.shift, Node.walk, walk_shift children]
  | .atRule name prelude none span =>
    simp [Node.shift, Node.walk, walk_shift prelude, shiftBlock, walkBlock]
  | .atRule name prelude (some block) span =>
    simp [Node.shift, Node.walk, walk_shift prelude, shiftBlock, walkBlock, Node.walk_shift block]

theorem walk_shift (nodes : List Node) :
    walk (shiftNodes offset nodes) = (walk nodes).map fun node => node.shift offset := by
  match nodes with
  | [] => rfl
  | node :: rest => simp [shiftNodes, walk, Node.walk_shift node, walk_shift rest]

end

mutual

theorem Component.lexemes_shift (component : Component) :
    (component.shift offset).lexemes =
      component.lexemes.map fun lexeme => lexeme.shift offset := by
  match component with
  | .token lexeme => simp [Component.shift, Component.lexemes]
  | .group opener contents none =>
    simp [Component.shift, Component.lexemes, componentLexemes_shift contents]
  | .group opener contents (some closer) =>
    simp [Component.shift, Component.lexemes, componentLexemes_shift contents]

theorem componentLexemes_shift (components : List Component) :
    componentLexemes (shiftComponents offset components) =
      (componentLexemes components).map fun lexeme => lexeme.shift offset := by
  match components with
  | [] => rfl
  | component :: rest =>
    simp [shiftComponents, componentLexemes, Component.lexemes_shift component,
      componentLexemes_shift rest]

end

mutual

theorem Component.stop_shift (component : Component) :
    (component.shift offset).stop = component.stop + offset := by
  match component with
  | .token lexeme => simp [Component.shift, Component.stop, Lexeme.stop_shift]
  | .group opener contents none =>
    simp [Component.shift, Component.stop, Lexeme.stop_shift, stopOfContents_shift]
  | .group opener contents (some closer) =>
    simp [Component.shift, Component.stop, Lexeme.stop_shift]

theorem stopOfContents_shift (start : Nat) (components : List Component) :
    stopOfContents (start + offset) (shiftComponents offset components) =
      stopOfContents start components + offset := by
  match components with
  | [] => rfl
  | [component] => simp [shiftComponents, stopOfContents, Component.stop_shift component]
  | first :: component :: rest =>
    simpa [shiftComponents, stopOfContents] using stopOfContents_shift start (component :: rest)

end

theorem Component.start_shift (component : Component) :
    (component.shift offset).start = component.start + offset := by
  cases component <;> rfl

theorem Component.span_shift (component : Component) :
    (component.shift offset).span = component.span.shift offset := by
  simp [Component.span, Component.start_shift, Component.stop_shift, Span.shift]

theorem Component.head_shift (component : Component) :
    (component.shift offset).head = component.head := by
  cases component <;> rfl

theorem Component.text_shift (component : Component) :
    (component.shift offset).text = component.text := by
  rw [Component.text, Component.text, Component.lexemes_shift, List.flatMap_map]
  rfl

/-! Putting together. -/

def Opened.shift (opened : Opened) : Opened :=
  ⟨opened.opener.shift offset, opened.bracket,
    opened.before.map fun component => component.shift offset⟩

def Nesting.shift (nesting : Nesting) : Nesting :=
  ⟨nesting.opened.map fun opened => opened.shift offset,
    nesting.current.map fun component => component.shift offset⟩

theorem Nesting.step_shift (nesting : Nesting) (lexeme : Lexeme) :
    (nesting.shift offset).step (lexeme.shift offset) = (nesting.step lexeme).shift offset := by
  obtain ⟨opened, current⟩ := nesting
  unfold Nesting.step
  simp only [Lexeme.shift]
  cases lexeme.token.opens with
  | some bracket => rfl
  | none =>
    cases opened with
    | nil => rfl
    | cons frame outer =>
      simp only [Nesting.shift, List.map_cons, Opened.shift]
      split
      · simp [Component.shift, shiftComponents_eq, Lexeme.shift]
      · rfl

theorem Nesting.run_shift (nesting : Nesting) (lexemes : List Lexeme) :
    (lexemes.map fun lexeme => lexeme.shift offset).foldl Nesting.step (nesting.shift offset) =
      (lexemes.foldl Nesting.step nesting).shift offset := by
  induction lexemes generalizing nesting with
  | nil => rfl
  | cons lexeme rest ih =>
    rw [List.map_cons, List.foldl_cons, Nesting.step_shift, ih, List.foldl_cons]

theorem Nesting.finish_shift (nesting : Nesting) :
    (nesting.shift offset).finish = nesting.finish.map fun component => component.shift offset := by
  obtain ⟨opened, current⟩ := nesting
  induction opened generalizing current with
  | nil => simp [Nesting.finish, Nesting.shift]
  | cons frame outer ih =>
    have closed := ih (.group frame.opener current.reverse none :: frame.before)
    simpa [Nesting.finish, Nesting.shift, Opened.shift, Component.shift, shiftComponents_eq]
      using closed

theorem nest_shift (lexemes : List Lexeme) :
    nest (lexemes.map fun lexeme => lexeme.shift offset) =
      (nest lexemes).map fun component => component.shift offset := by
  rw [nest, nest, ← Nesting.finish_shift, ← Nesting.run_shift]
  rfl

/-! Reading. -/

def Reading.shift (reading : Reading) : Reading :=
  ⟨reading.component.shift offset, reading.node.map fun node => node.shift offset⟩

def Place.shift : Place → Place
  | .start => .start
  | .inside => .inside
  | .named => .named
  | .value first text => .value (first + offset) text
  | .prelude name first stop nodes =>
    .prelude name (first + offset) (stop + offset) (nodes.map fun node => node.shift offset)

def shiftResult (result : List Node × Place) : List Node × Place :=
  (result.1.map fun node => node.shift offset, result.2.shift offset)

theorem rawNode_shift (first : Nat) (text : List Char) :
    rawNode (first + offset) text = (rawNode first text).shift offset := by
  simp only [rawNode, Node.shift, Option.map_some, Span.shift, Node.leaf.injEq, Option.some.injEq,
    Span.mk.injEq, true_and]
  omega

theorem toList_map_shift (node : Option Node) :
    (node.map fun node => node.shift offset).toList =
      node.toList.map fun node => node.shift offset := by
  cases node <;> rfl

theorem afterOrdinary_shift (head : Token) :
    (Place.afterOrdinary head).shift offset = Place.afterOrdinary head := by
  unfold Place.afterOrdinary
  split <;> rfl

theorem ordinary_shift (mode : Mode) (atStart : Bool) (reading : Reading) :
    ordinary mode atStart (reading.shift offset) =
      shiftResult offset (ordinary mode atStart reading) := by
  unfold ordinary shiftResult
  simp only [Reading.shift, Component.head_shift, Component.start_shift, Component.stop_shift,
    toList_map_shift]
  split
  · rfl
  · split <;> rfl
  · simp [afterOrdinary_shift]

theorem step_shift (mode : Mode) (place : Place) (reading : Reading) :
    step mode (place.shift offset) (reading.shift offset) =
      shiftResult offset (step mode place reading) := by
  have headSame : (reading.shift offset).component.head = reading.component.head :=
    Component.head_shift offset reading.component
  have stopMoved : (reading.shift offset).component.stop = reading.component.stop + offset :=
    Component.stop_shift offset reading.component
  have textSame : (reading.shift offset).component.text = reading.component.text :=
    Component.text_shift offset reading.component
  have nodeMoved : (reading.shift offset).node = reading.node.map fun node => node.shift offset := rfl
  cases place with
  | start =>
    simp only [step, Place.shift, headSame, ordinary_shift]
    split <;> rfl
  | inside =>
    simp only [step, Place.shift, headSame, ordinary_shift]
    split <;> rfl
  | named =>
    simp only [step, Place.shift, headSame, stopMoved, ordinary_shift]
    split
    · rfl
    · split <;> rfl
  | value first text =>
    simp only [step, Place.shift, headSame, textSame, ordinary_shift, rawNode_shift]
    split <;> rfl
  | prelude name first stop nodes =>
    simp only [step, Place.shift, headSame, stopMoved, nodeMoved, toList_map_shift]
    split
    · rfl
    · split
      · simp [shiftResult, Node.shift, shiftNodes_eq, shiftBlock, Span.shift, Place.shift]
      · split
        · simp [shiftResult, Node.shift, shiftNodes_eq, shiftBlock_eq, Span.shift, Place.shift]
        · simp [shiftResult, Place.shift]

theorem finish_shift (place : Place) :
    (place.shift offset).finish = place.finish.map fun node => node.shift offset := by
  cases place with
  | start => rfl
  | inside => rfl
  | named => rfl
  | value first text => simp [Place.shift, Place.finish, rawNode_shift]
  | prelude name first stop nodes =>
    simp [Place.shift, Place.finish, Node.shift, shiftNodes_eq, shiftBlock, Span.shift]

theorem assemble_shift (mode : Mode) (place : Place) (list : List Reading) :
    assemble mode (place.shift offset) (list.map fun reading => reading.shift offset) =
      (assemble mode place list).map fun node => node.shift offset := by
  induction list generalizing place with
  | nil => exact finish_shift offset place
  | cons reading rest ih =>
    simp only [List.map_cons, assemble, step_shift, shiftResult, ih, List.map_append]

theorem enclose_shift (opener : Token) (children : List Node) (span : Span) :
    (enclose opener children span).shift offset =
      enclose opener (children.map fun node => node.shift offset) (span.shift offset) := by
  unfold enclose
  split <;> simp [Node.shift, shiftNodes_eq]

mutual

theorem Component.node_shift (component : Component) :
    (component.shift offset).node = component.node.map fun node => node.shift offset := by
  match component with
  | .token lexeme =>
    have span : (lexeme.shift offset).span = lexeme.span.shift offset := by
      rw [Lexeme.span, Lexeme.stop_shift]
      rfl
    have leaf : (lexeme.shift offset).leaf = lexeme.leaf := rfl
    rw [Component.shift, Component.node, Component.node, span, leaf]
    cases lexeme.leaf <;> rfl
  | .group opener contents closer =>
    have inside := readings_shift contents
    have span := Component.span_shift offset (.group opener contents closer)
    rw [Component.shift] at span ⊢
    rw [Component.node, Component.node, span, inside, Option.map_some, enclose_shift,
      ← assemble_shift]
    rfl

theorem readings_shift (components : List Component) :
    readings (shiftComponents offset components) =
      (readings components).map fun reading => reading.shift offset := by
  match components with
  | [] => rfl
  | component :: rest =>
    simp [shiftComponents, readings, readings_shift rest, Component.node_shift component,
      Reading.shift]

end

end DesignTokens.Css

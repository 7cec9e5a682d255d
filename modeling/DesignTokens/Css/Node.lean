import DesignTokens.Css.Token

/-!
Syntax trees of style sheets. The tree is shallow: function calls, literals, operators, blocks and
at-rules, each with the span it was read from. The value of a custom property is one raw leaf.
-/

namespace DesignTokens.Css

open DesignTokens.Text

inductive Leaf where
  | quoted (text : String)
  | ident (name : String)
  | number (value : Float)
  | dimension (value : Float) (unit : String)
  | percentage (value : Float)
  | hash (name : String)
  | operator (symbol : String)
  | raw (text : String)
  | url (text : String)
  | other (text : String)

/-- Nodes without a span come from a reading that records no positions. -/
inductive Node where
  | leaf (leaf : Leaf) (span : Option Span)
  | function (name : String) (children : List Node) (span : Option Span)
  | block (bracket : Bracket) (children : List Node) (span : Option Span)
  | atRule (name : String) (prelude : List Node) (block : Option Node) (span : Option Span)

namespace Node

def span : Node → Option Span
  | .leaf _ span | .function _ _ span | .block _ _ span | .atRule _ _ _ span => span

def children : Node → List Node
  | .leaf _ _ => []
  | .function _ children _ => children
  | .block _ children _ => children
  | .atRule _ prelude body _ => prelude ++ body.toList

def text (source : List Char) (node : Node) : Option (List Char) :=
  node.span.bind (slice source)

def isOperator : Node → Bool
  | .leaf (.operator _) _ => true
  | _ => false

end Node

/-- The node without a span of its own. The nodes inside it stay as they are. -/
def Node.unplaced : Node → Node
  | .leaf value _ => .leaf value none
  | .function name children _ => .function name children none
  | .block bracket children _ => .block bracket children none
  | .atRule name prelude body _ => .atRule name prelude body none

mutual

def Node.walk : Node → List Node
  | .leaf leaf span => [.leaf leaf span]
  | .function name children span => .function name children span :: walk children
  | .block bracket children span => .block bracket children span :: walk children
  | .atRule name prelude block span =>
    .atRule name prelude block span :: (walk prelude ++ walkBlock block)

def walk : List Node → List Node
  | [] => []
  | node :: rest => node.walk ++ walk rest

def walkBlock : Option Node → List Node
  | none => []
  | some node => node.walk

end

mutual

def Node.withoutSpans : Node → Node
  | .leaf leaf _ => .leaf leaf none
  | .function name children _ => .function name (withoutSpans children) none
  | .block bracket children _ => .block bracket (withoutSpans children) none
  | .atRule name prelude block _ =>
    .atRule name (withoutSpans prelude) (blockWithoutSpans block) none

def withoutSpans : List Node → List Node
  | [] => []
  | node :: rest => node.withoutSpans :: withoutSpans rest

def blockWithoutSpans : Option Node → Option Node
  | none => none
  | some node => some node.withoutSpans

end

theorem walk_append (left right : List Node) : walk (left ++ right) = walk left ++ walk right := by
  induction left with
  | nil => simp [walk]
  | cons node rest ih => simp [walk, ih]

theorem Node.walk_eq (node : Node) : node.walk = node :: DesignTokens.Css.walk node.children := by
  cases node with
  | leaf => simp [Node.walk, Node.children, DesignTokens.Css.walk]
  | function => simp [Node.walk, Node.children]
  | block => simp [Node.walk, Node.children]
  | atRule name prelude body span =>
    cases body <;> simp [Node.walk, Node.children, walkBlock, walk_append,
      DesignTokens.Css.walk]

end DesignTokens.Css

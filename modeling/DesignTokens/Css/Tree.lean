import DesignTokens.Css.Component
import DesignTokens.Css.Node

/-!
Reading a text as a syntax tree. Every component is first read on its own; then a machine goes
through the list once and joins what belongs together: at-rules with their prelude and block, and
the names of custom properties with their raw values. Only style sheets and curly blocks have
these; values, function arguments and the other blocks take their components one by one.
-/

namespace DesignTokens.Css

open DesignTokens.Text DesignTokens.Number

/-- What a list of components is read as. -/
inductive Mode where
  | statements
  | values
  deriving DecidableEq, Repr

/-- The number in front of a unit: the text without as many bytes as the unit's value has. Where
an escape gives the unit another length and no number is left, the stored value serves. -/
def dimensionValue (text : List Char) (numeral : Numeral) (unit : String) : Float :=
  let size := byteLength text
  let number := if unit.utf8ByteSize ≤ size then
      (cutAt (size - unit.utf8ByteSize) text).bind fun (before, _) => Decimal.read before
    else none
  match number with
  | some decimal => decimal.toFloat
  | none => storedValue numeral

def Lexeme.leaf (lexeme : Lexeme) : Option Leaf :=
  match lexeme.token with
  | .space | .comment => none
  | .quoted text => some (.quoted text)
  | .ident name => some (.ident name)
  | .hash name => some (.hash name)
  | .url text => some (.url text)
  | .number numeral => some (.number numeral.value)
  | .percentage numeral => some (.percentage numeral.value)
  | .dimension numeral unit =>
    some (.dimension (dimensionValue lexeme.text numeral unit) unit)
  | .delimiter c => some (.operator (String.singleton c))
  | .comma => some (.operator ",")
  | .colon => some (.operator ":")
  | .semicolon => some (.operator ";")
  | .function _ | .atKeyword _ | .opening _ | .closing _ | .unclassified =>
    some (.other (String.ofList lexeme.text))

def isCurly : Token → Bool
  | .opening .curly => true
  | _ => false

def contentMode (opener : Token) : Mode :=
  if isCurly opener then .statements else .values

def enclose (opener : Token) (children : List Node) (span : Span) : Node :=
  match opener with
  | .function name => .function name children (some span)
  | .opening bracket => .block bracket children (some span)
  | _ => .block .round children (some span)

structure Reading where
  component : Component
  node : Option Node

/-- Where the machine stands in a list of components. -/
inductive Place where
  | start
  | inside
  | named
  | value (first : Nat) (text : List Char)
  /-- In the prelude of an at-rule that has been read up to `stop`. -/
  | prelude (name : String) (first stop : Nat) (nodes : List Node)

def rawNode (first : Nat) (text : List Char) : Node :=
  let value := trim text
  let start := first + byteLength (leadingBlanks text)
  .leaf (.raw (String.ofList value)) (some ⟨start, start + byteLength value⟩)

def Place.afterOrdinary (head : Token) : Place :=
  if head = .semicolon || isCurly head then .start else .inside

def isCustomName (name : String) : Bool :=
  ['-', '-'].isPrefixOf name.toList

def ordinary (mode : Mode) (atStart : Bool) (reading : Reading) : List Node × Place :=
  let component := reading.component
  match mode, component.head with
  | .statements, .atKeyword name => ([], .prelude name component.start component.stop [])
  | .statements, .ident name =>
    if atStart && isCustomName name then (reading.node.toList, .named)
    else (reading.node.toList, .inside)
  | _, head => (reading.node.toList, .afterOrdinary head)

/-- One component: the nodes it completes and where the machine stands afterwards. -/
def step (mode : Mode) (place : Place) (reading : Reading) : List Node × Place :=
  let component := reading.component
  let head := component.head
  match place with
  | .value first text =>
    if head = .semicolon then
      let following := ordinary mode false reading
      (rawNode first text :: following.1, following.2)
    else
      ([], .value first (text ++ component.text))
  | .prelude name first _ nodes =>
    if head.isTrivia then ([], .prelude name first component.stop nodes)
    else if head = .semicolon then
      ([.atRule name nodes none (some ⟨first, component.stop⟩)], .start)
    else if isCurly head then
      ([.atRule name nodes reading.node (some ⟨first, component.stop⟩)], .start)
    else
      ([], .prelude name first component.stop (nodes ++ reading.node.toList))
  | .named =>
    if head.isTrivia then ([], .named)
    else if head = .colon then ([], .value component.stop [])
    else ordinary mode false reading
  | .inside => if head.isTrivia then ([], .inside) else ordinary mode false reading
  | .start => if head.isTrivia then ([], .start) else ordinary mode true reading

def Place.finish : Place → List Node
  | .value first text => [rawNode first text]
  | .prelude name first stop nodes => [.atRule name nodes none (some ⟨first, stop⟩)]
  | .start | .inside | .named => []

def assemble (mode : Mode) (place : Place) : List Reading → List Node
  | [] => place.finish
  | reading :: rest =>
    let (nodes, next) := step mode place reading
    nodes ++ assemble mode next rest

mutual

def Component.node : Component → Option Node
  | .token lexeme => lexeme.leaf.map fun leaf => .leaf leaf (some lexeme.span)
  | .group opener contents closer =>
    let children := assemble (contentMode opener.token) .start (readings contents)
    some (enclose opener.token children (Component.group opener contents closer).span)

def readings : List Component → List Reading
  | [] => []
  | component :: rest => ⟨component, component.node⟩ :: readings rest

end

def parse (mode : Mode) (text : List Char) : List Node :=
  assemble mode .start (readings (components text))

/-! Without positions the same machine goes through the components, but no node that it completes is
given a span. -/

def assembleUnplaced (mode : Mode) (place : Place) : List Reading → List Node
  | [] => place.finish.map Node.unplaced
  | reading :: rest =>
    let (nodes, next) := step mode place reading
    nodes.map Node.unplaced ++ assembleUnplaced mode next rest

mutual

def Component.unplacedNode : Component → Option Node
  | .token lexeme => lexeme.leaf.map fun leaf => .leaf leaf none
  | .group opener contents closer =>
    let children :=
      assembleUnplaced (contentMode opener.token) .start (unplacedReadings contents)
    some (enclose opener.token children (Component.group opener contents closer).span).unplaced

def unplacedReadings : List Component → List Reading
  | [] => []
  | component :: rest => ⟨component, component.unplacedNode⟩ :: unplacedReadings rest

end

def parseUnplaced (mode : Mode) (text : List Char) : List Node :=
  assembleUnplaced mode .start (unplacedReadings (components text))

/-- Whether nodes keep the spans they were read from. -/
inductive Positions where
  | recorded
  | omitted
  deriving DecidableEq, Repr

def Positions.keep (positions : Positions) (mode : Mode) (text : List Char) : List Node :=
  match positions with
  | .recorded => parse mode text
  | .omitted => parseUnplaced mode text

def parseStylesheet (positions : Positions) (text : String) : List Node :=
  positions.keep .statements text.toList

def parseValue (positions : Positions) (text : String) : List Node :=
  positions.keep .values text.toList

end DesignTokens.Css

import DesignTokens.Call

/-!
Finding the reserved calls and the injection marks of a style sheet. Values of custom properties
are opaque to the tree; those that mention a reserved name are read a second time as values, and
the spans found in them are moved to where the value stands.
-/

namespace DesignTokens

open DesignTokens.Css DesignTokens.Text

def reservedCall? (base : Option Nat) : Node → Option CallReading
  | .function name arguments span =>
    (ReservedName.ofText? name).map fun reserved =>
      match span, base with
      | some span, some offset => readCall reserved arguments (span.shift offset)
      | _, _ => .dropped (.missingLocation name)
  | _ => none

def mentionsReserved (text : String) : Bool :=
  occursIn "--token".toList text.toList || occursIn "--value".toList text.toList

def reservedCalls (positions : Positions) (node : Node) : List CallReading :=
  match node with
  | .leaf (.raw text) span =>
    if mentionsReserved text then
      (walk (parseValue positions text)).filterMap (reservedCall? (span.map Span.start))
    else
      []
  | node => (reservedCall? (some 0) node).toList

def readCalls (positions : Positions) (text : String) : List CallReading :=
  (walk (parseStylesheet positions text)).flatMap (reservedCalls positions)

def callsOf (readings : List CallReading) : List Call :=
  readings.filterMap CallReading.call?

def diagnosticsOf (readings : List CallReading) : List Diagnostic :=
  readings.filterMap fun reading => reading.problem?.map CallProblem.diagnostic

def extractWith (positions : Positions) (text : String) : List Call × List Diagnostic :=
  let readings := readCalls positions text
  (callsOf readings, diagnosticsOf readings)

def extract (text : String) : List Call × List Diagnostic :=
  extractWith .recorded text

structure InjectionMark where
  location : Span
  prelude : Option String
  block : Option String
  deriving DecidableEq, Repr

def textOfNodes (source : List Char) (nodes : List Node) : Option String := do
  let first ← (← nodes.head?).span
  let last ← (← nodes.getLast?).span
  let text ← slice source ⟨first.start, last.stop⟩
  return String.ofList text

/-- An injection mark, or the name of an at-rule that would be one if it had a location. -/
def injectionMark? (source : List Char) : Node → Option (Except String InjectionMark)
  | .atRule name prelude block span =>
    if sameIgnoringCase name "snowcss" then
      match span with
      | none => some (.error name)
      | some location =>
        let blockText := (block.bind fun node => node.text source).map String.ofList
        some (.ok ⟨location, textOfNodes source prelude, blockText⟩)
    else
      none
  | _ => none

def missingMark (name : String) : Diagnostic :=
  ⟨.error, "missing location for at-rule '@" ++ name ++ "'", some "extract:parseAtRule"⟩

def injectionMarksWith (positions : Positions) (text : String) :
    List InjectionMark × List Diagnostic :=
  let found := (walk (parseStylesheet positions text)).filterMap
    (injectionMark? text.toList)
  (found.filterMap Except.toOption,
    found.filterMap fun mark =>
      match mark with
      | .ok _ => none
      | .error name => some (missingMark name))

def injectionMarks (text : String) : List InjectionMark × List Diagnostic :=
  injectionMarksWith .recorded text

end DesignTokens

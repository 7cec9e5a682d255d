import DesignTokens.Config
import DesignTokens.Extraction

/-!
What calls stand for in a given configuration.
-/

namespace DesignTokens

open DesignTokens.Text

structure ResolvedToken where
  name : ReservedName
  path : TokenPath
  values : List Value
  parts : List String
  location : Span

namespace ResolvedToken

def valueText (token : ResolvedToken) : String :=
  joinWith [' '] token.parts

def replacement (token : ResolvedToken) : String :=
  match token.name with
  | .token => token.path.cssReference
  | .value => token.valueText

end ResolvedToken

inductive ResolutionProblem where
  | notFound (path : TokenPath)
  | emptyToken (path : TokenPath)
  | severalValues (path : TokenPath)
  deriving DecidableEq, Repr

namespace ResolutionProblem

def message : ResolutionProblem → String
  | .notFound path => "token '" ++ path.dotPath ++ "' not found"
  | .emptyToken path => "cannot apply modifier to empty token '" ++ path.dotPath ++ "'"
  | .severalValues path => "cannot apply modifier to multi-value token '" ++ path.dotPath ++ "'"

def diagnostic (problem : ResolutionProblem) : Diagnostic :=
  ⟨.warning, problem.message, some "resolver"⟩

end ResolutionProblem

/-- The value of a token after a modifier. Where the modifier does not apply, the value stays as it
is written. -/
def Token.modified (rootFontSize : Float) (token : Token) (modifier : Modifier) :
    String × Option ResolutionProblem :=
  match token.values with
  | [] => (token.raw, some (.emptyToken token.path))
  | [value] => ((value.apply rootFontSize modifier).getD token.raw, none)
  | _ => (token.raw, some (.severalValues token.path))

def Call.resolveAs (rootFontSize : Float) (call : Call) (token : Token) :
    ResolvedToken × Option ResolutionProblem :=
  let (text, problem) := match call.modifier with
    | none => (token.raw, none)
    | some modifier => token.modified rootFontSize modifier
  (⟨call.name, token.path, token.values, [text], call.location⟩, problem)

/-- A call without a token is dropped with a warning. -/
def Call.resolve (config : Config) (call : Call) :
    Option ResolvedToken × Option ResolutionProblem :=
  match config.find? call.path with
  | none => (none, some (.notFound call.path))
  | some found =>
    let (resolved, problem) := call.resolveAs config.rootFontSize found
    (some resolved, problem)

def resolve (config : Config) (calls : List Call) : List ResolvedToken × List Diagnostic :=
  let results := calls.map (Call.resolve config)
  (results.filterMap Prod.fst,
    results.filterMap fun (_, problem) => problem.map ResolutionProblem.diagnostic)

def resolveAll (config : Config) : List ResolvedToken × List Diagnostic :=
  let results := config.tokens.map fun token =>
    (Call.value token.path none Span.empty).resolveAs config.rootFontSize token
  (results.map Prod.fst,
    results.filterMap fun (_, problem) => problem.map ResolutionProblem.diagnostic)

end DesignTokens

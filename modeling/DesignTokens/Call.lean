import DesignTokens.Diagnostic
import DesignTokens.Token

/-!
Calls of the two reserved functions. `--token("path")` stands for a reference to a custom property;
`--value("path" modifier)` stands for the value itself, changed by `to px`, `to rem`, `negate` or
`/ percentage`. Reading a call either gives the call, perhaps with one problem, or drops it with
exactly one problem.
-/

namespace DesignTokens

open DesignTokens.Css DesignTokens.Text

inductive ReservedName where
  | token
  | value
  deriving DecidableEq, Repr

namespace ReservedName

def text : ReservedName → String
  | .token => "--token"
  | .value => "--value"

def ofText? (text : String) : Option ReservedName :=
  if text = "--token" then some .token
  else if text = "--value" then some .value
  else none

theorem ofText?_text (name : ReservedName) : ofText? name.text = some name := by
  cases name <;> rfl

theorem eq_text_of_ofText? {text : String} {name : ReservedName} (found : ofText? text = some name) :
    text = name.text := by
  unfold ofText? at found
  split at found
  · rename_i same
    cases found
    exact same
  · split at found
    · rename_i same
      cases found
      exact same
    · contradiction

end ReservedName

inductive Call where
  | token (path : TokenPath) (location : Span)
  | value (path : TokenPath) (modifier : Option Modifier) (location : Span)

namespace Call

def name : Call → ReservedName
  | .token _ _ => .token
  | .value _ _ _ => .value

def path : Call → TokenPath
  | .token path _ | .value path _ _ => path

def location : Call → Span
  | .token _ location | .value _ _ location => location

def modifier : Call → Option Modifier
  | .token _ _ => none
  | .value _ modifier _ => modifier

/-- A text that tells apart what a call makes of a token. -/
def key (call : Call) (token : Token) : String :=
  match call with
  | .token _ _ => "token:" ++ token.key
  | .value _ modifier _ =>
    "value:" ++ token.key ++ ":" ++ fingerprint ((modifier.map Modifier.key).getD "None")

end Call

inductive CallProblem where
  | unquotedPath
  | emptyPath
  | tokenModifier
  | unknownModifier
  | missingUnit
  | unknownUnit (unit : String)
  | missingPercentage
  | trailingContent (path : TokenPath)
  | missingLocation (name : String)
  deriving DecidableEq, Repr

namespace CallProblem

def message : CallProblem → String
  | .unquotedPath => "expected a quoted string path as first argument"
  | .emptyPath => "empty path is not allowed"
  | .tokenModifier => "--token() does not support modifiers"
  | .unknownModifier => "unexpected --value() modifier"
  | .missingUnit => "expected unit identifier after 'to': px, rem"
  | .unknownUnit unit => "unexpected unit '" ++ unit ++ "'; expected 'px' or 'rem'"
  | .missingPercentage => "expected percentage value after '/'"
  | .trailingContent path =>
    "unexpected trailing content in --value('" ++ path.dotPath ++ "') call; ignored"
  | .missingLocation name => "missing location for function node '" ++ name ++ "'"

def severity : CallProblem → Severity
  | .trailingContent _ => .warning
  | _ => .error

def context : CallProblem → String
  | .missingLocation _ => "extract:parse"
  | _ => "parser"

def diagnostic (problem : CallProblem) : Diagnostic :=
  ⟨problem.severity, problem.message, some problem.context⟩

end CallProblem

inductive CallReading where
  | kept (call : Call) (problem : Option CallProblem)
  | dropped (problem : CallProblem)

namespace CallReading

def call? : CallReading → Option Call
  | .kept call _ => some call
  | .dropped _ => none

def problem? : CallReading → Option CallProblem
  | .kept _ problem => problem
  | .dropped problem => some problem

end CallReading

def readPath : List Node → Except CallProblem (TokenPath × List Node)
  | .leaf (.quoted text) _ :: rest =>
    if (trim text.toList).isEmpty then .error .emptyPath
    else .ok (TokenPath.ofDotPath text, rest)
  | _ => .error .unquotedPath

def readUnit : List Node → Except CallProblem (Modifier × List Node)
  | .leaf (.ident name) _ :: rest =>
    match TargetUnit.ofName? name with
    | some target => .ok (.convert target, rest)
    | none => .error (.unknownUnit name)
  | _ => .error .missingUnit

def readAlpha : List Node → Except CallProblem (Modifier × List Node)
  | .leaf (.percentage percent) _ :: rest => .ok (.alpha (percent / 100.0), rest)
  | _ => .error .missingPercentage

def readModifier (first : Node) (rest : List Node) : Except CallProblem (Modifier × List Node) :=
  match first with
  | .leaf (.ident name) _ =>
    if name = "to" then readUnit rest
    else if name = "negate" then .ok (.negate, rest)
    else .error .unknownModifier
  | .leaf (.operator symbol) _ =>
    if symbol = "/" then readAlpha rest else .error .unknownModifier
  | _ => .error .unknownModifier

/-- A call without its modifier is still of use, so a bad modifier keeps the call. -/
def readValueCall (path : TokenPath) (location : Span) : List Node → CallReading
  | [] => .kept (.value path none location) none
  | first :: rest =>
    match readModifier first rest with
    | .error problem => .kept (.value path none location) (some problem)
    | .ok (modifier, []) => .kept (.value path (some modifier) location) none
    | .ok (modifier, _ :: _) =>
      .kept (.value path (some modifier) location) (some (.trailingContent path))

def readTokenCall (path : TokenPath) (location : Span) : List Node → CallReading
  | [] => .kept (.token path location) none
  | _ :: _ => .dropped .tokenModifier

def readCall (name : ReservedName) (arguments : List Node) (location : Span) : CallReading :=
  match readPath arguments with
  | .error problem => .dropped problem
  | .ok (path, rest) =>
    match name with
    | .token => readTokenCall path location rest
    | .value => readValueCall path location rest

end DesignTokens

/-!
Diagnostics: findings about a style sheet that do not stop its processing.
-/

namespace DesignTokens

inductive Severity where
  | error
  | warning
  | info
  deriving DecidableEq, Repr

namespace Severity

def name : Severity → String
  | .error => "error"
  | .warning => "warning"
  | .info => "info"

def ofName? (name : String) : Option Severity :=
  if name = "error" then some .error
  else if name = "warning" then some .warning
  else if name = "info" then some .info
  else none

theorem ofName?_name (severity : Severity) : ofName? severity.name = some severity := by
  cases severity <;> rfl

end Severity

structure Diagnostic where
  severity : Severity
  message : String
  context : Option String
  deriving DecidableEq, Repr

namespace Diagnostic

def isError (diagnostic : Diagnostic) : Bool :=
  diagnostic.severity = .error

def text (diagnostic : Diagnostic) : String :=
  match diagnostic.context with
  | some context => diagnostic.severity.name ++ " [" ++ context ++ "]: " ++ diagnostic.message
  | none => diagnostic.severity.name ++ ": " ++ diagnostic.message

end Diagnostic

def hasErrors (diagnostics : List Diagnostic) : Bool :=
  diagnostics.any Diagnostic.isError

def countSeverity (severity : Severity) (diagnostics : List Diagnostic) : Nat :=
  diagnostics.countP fun diagnostic => diagnostic.severity = severity

end DesignTokens

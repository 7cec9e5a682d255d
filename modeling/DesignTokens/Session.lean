import DesignTokens.Emission
import DesignTokens.Splice

/-!
A build with one configuration. The session remembers the tokens that were referred to, so that
only their custom properties need to be emitted.
-/

namespace DesignTokens

open DesignTokens.Text

structure Session where
  config : Config
  collected : Register ResolvedToken

namespace Session

def start (config : Config) : Session :=
  ⟨config, .empty⟩

def remember (session : Session) (token : ResolvedToken) : Session :=
  match token.name with
  | .token =>
    { session with collected := session.collected.put token.path.dotPath token }
  | .value => session

/-- Resolves the calls of a style sheet; findings about calls come before those about tokens. -/
def collect (session : Session) (text : String) :
    Session × List ResolvedToken × List Diagnostic :=
  let (calls, found) := extract text
  let (resolved, unresolved) := resolve session.config calls
  (resolved.foldl remember session, resolved, found ++ unresolved)

def clear (session : Session) : Session :=
  { session with collected := .empty }

def emitCollected (session : Session) (style : EmissionStyle) : Option String :=
  emit style session.collected.values

def emitAll (session : Session) (style : EmissionStyle) : Option String × List Diagnostic :=
  let (resolved, unresolved) := resolveAll session.config
  (emit style resolved, unresolved)

def severalMarks (count : Nat) : Diagnostic :=
  ⟨.warning, "found " ++ toString count ++
    " '@snowcss' at-rules, only the first one will be used", some "transform"⟩

def injectAtMark (session : Session) (text : String) : String × List Diagnostic :=
  let (marks, found) := injectionMarks text
  match marks with
  | [] => (text, found)
  | first :: others =>
    let repeated := if others.isEmpty then [] else [severalMarks marks.length]
    let (sheet, unresolved) := session.emitAll .pretty
    (replaceSpan text first.location (sheet.getD ""), found ++ repeated ++ unresolved)

/-- Compiles a style sheet. An error in it leaves no code. -/
def transform (session : Session) (text : String) :
    Session × Option String × List Diagnostic :=
  let (session, resolved, diagnostics) := session.collect text
  if hasErrors diagnostics then (session, none, diagnostics)
  else
    let output := replaceCalls text resolved
    match session.config.injection with
    | .atRule =>
      let (injected, found) := session.injectAtMark output
      (session, some injected, diagnostics ++ found)
    | _ => (session, some output, diagnostics)

end Session

end DesignTokens

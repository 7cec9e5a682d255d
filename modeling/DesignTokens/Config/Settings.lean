import DesignTokens.TokenTable

/-!
A configuration as its author writes it.
-/

namespace DesignTokens

inductive Injection where
  | atRule
  | asset
  | inlined
  deriving DecidableEq, Repr, Inhabited

namespace Injection

def name : Injection → String
  | .atRule => "at-rule"
  | .asset => "asset"
  | .inlined => "inline"

def ofName? (name : String) : Option Injection :=
  if name = "at-rule" then some .atRule
  else if name = "asset" then some .asset
  else if name = "inline" then some .inlined
  else none

theorem ofName?_name (injection : Injection) : ofName? injection.name = some injection := by
  cases injection <;> rfl

end Injection

structure Settings where
  namePrefix : Option String
  injection : Injection
  rootFontSize : Float
  tokens : TokenTable

namespace Settings

def defaultRootFontSize : Float := 16.0

def ofTokens (tokens : TokenTable) : Settings :=
  ⟨none, .asset, defaultRootFontSize, tokens⟩

end Settings

end DesignTokens

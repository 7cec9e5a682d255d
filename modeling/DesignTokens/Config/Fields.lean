import DesignTokens.Config.Settings

/-!
The fields of a written configuration, before their values are read.
-/

namespace DesignTokens

structure Fields (α : Type) where
  namePrefix : Option α
  injection : Option α
  rootFontSize : Option α
  tokens : Option α

namespace Fields

variable {α : Type}

def none : Fields α := ⟨.none, .none, .none, .none⟩

/-- A field that was there before is refused. -/
def once (old : Option α) (value : α) : Option (Option α) :=
  match old with
  | .none => some (some value)
  | some _ => .none

def add (fields : Fields α) (name : String) (value : α) : Option (Fields α) :=
  if name = "prefix" then
    (once fields.namePrefix value).map fun namePrefix => { fields with namePrefix }
  else if name = "inject" then
    (once fields.injection value).map fun injection => { fields with injection }
  else if name = "rootFontSize" then
    (once fields.rootFontSize value).map fun rootFontSize => { fields with rootFontSize }
  else if name = "tokens" then
    (once fields.tokens value).map fun tokens => { fields with tokens }
  else
    some fields

def readOr {β : Type} (field : Option α) (fallback : β) (read : α → Option β) : Option β :=
  match field with
  | .none => some fallback
  | some value => read value

def settings? (fields : Fields α) (readPrefix : α → Option (Option String))
    (readInjection : α → Option Injection) (readNumber : α → Option Float)
    (readTokens : α → Option TokenTable) : Option Settings := do
  let namePrefix ← readOr fields.namePrefix .none readPrefix
  let injection ← readOr fields.injection .asset readInjection
  let rootFontSize ← readOr fields.rootFontSize Settings.defaultRootFontSize readNumber
  let tokens ← readTokens (← fields.tokens)
  return ⟨namePrefix, injection, rootFontSize, tokens⟩

end Fields

end DesignTokens

import DesignTokens.Number.Layout

/-!
Modifiers: what a call may do to the value it takes over.
-/

namespace DesignTokens

open DesignTokens.Number

inductive TargetUnit where
  | px
  | rem
  deriving DecidableEq, Repr

namespace TargetUnit

def name : TargetUnit → String
  | .px => "px"
  | .rem => "rem"

/-- Unit names in calls are matched exactly, in lower case. -/
def ofName? (name : String) : Option TargetUnit :=
  if name = "px" then some .px
  else if name = "rem" then some .rem
  else none

theorem ofName?_name (unit : TargetUnit) : ofName? unit.name = some unit := by
  cases unit <;> rfl

end TargetUnit

inductive Modifier where
  | convert (target : TargetUnit)
  | alpha (value : Float)
  | negate

def Modifier.key : Modifier → String
  | .convert target => "unit:" ++ target.name
  | .alpha value => "alpha:" ++ cssText value
  | .negate => "negate"

end DesignTokens

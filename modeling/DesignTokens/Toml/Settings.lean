import DesignTokens.Config.Fields
import DesignTokens.Toml.Document

/-!
Settings written in TOML.
-/

namespace DesignTokens.Toml

def prefixOf? : Tree → Option (Option String)
  | .text value => some (some value)
  | _ => none

def isVacant : Tree → Bool
  | .table _ entries => entries.isEmpty
  | .array items => items.isEmpty
  | .tables items => items.isEmpty
  | _ => false

def injectionOf? : Tree → Option Injection
  | .text name => Injection.ofName? name
  | .table _ [(name, value)] => if isVacant value then Injection.ofName? name else none
  | _ => none

def numberOf? : Tree → Option Float
  | .integer value => some (integerFloat value)
  | .float value => some value
  | _ => none

/-- A date or time counts as a table with its text under this key. -/
def dateTimeKey : String := "$__toml_private_datetime"

def dateTimeTable (text : String) : TokenTable :=
  .entry dateTimeKey (.text text) .empty

mutual

def nodeOf? : Tree → Option TokenNode
  | .text value => some (.text value)
  | .integer value => some (.number (integerFloat value))
  | .float value => some (.number value)
  | .dateTime text => some (.table (dateTimeTable text))
  | .table _ entries => (addEntries? .empty entries).map TokenNode.table
  | _ => none

def addEntries? (table : TokenTable) : Entries → Option TokenTable
  | [] => some table
  | (key, value) :: rest =>
    match nodeOf? value with
    | some node => addEntries? (table.insert key node) rest
    | none => none

end

def tableOf? : Tree → Option TokenTable
  | .dateTime text => some (dateTimeTable text)
  | .table _ entries => addEntries? .empty entries
  | _ => none

def tokensOf? : Tree → Option TokenTable
  | .array items => (items.mapM tableOf?).map TokenTable.mergeAll
  | .tables items => (items.mapM (addEntries? .empty)).map TokenTable.mergeAll
  | tree => tableOf? tree

def addFields? (fields : Fields Tree) : Entries → Option (Fields Tree)
  | [] => some fields
  | (name, value) :: rest =>
    match fields.add name value with
    | none => none
    | some fields => addFields? fields rest

def readSettings? (text : String) : Option Settings := do
  let entries ← parse? text.toList
  let fields ← addFields? Fields.none entries
  fields.settings? prefixOf? injectionOf? numberOf? tokensOf?

end DesignTokens.Toml

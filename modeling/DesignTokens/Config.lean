import DesignTokens.Config.Settings
import DesignTokens.Files.FilePath
import DesignTokens.Register
import DesignTokens.Token

/-!
A usable configuration: settings that passed their checks, and the index of their tokens. The index
is kept under dot paths without the prefix; the tokens' own paths carry it.
-/

namespace DesignTokens

open DesignTokens.Number DesignTokens.Text

inductive ConfigError where
  | rootFontSize (value : Float)
  | dottedPrefix (namePrefix : String)

def ConfigError.message : ConfigError → String
  | .rootFontSize value =>
    "Invalid config value for 'rootFontSize': expected a positive number, got " ++ plainText value
  | .dottedPrefix namePrefix =>
    "Invalid config value for 'prefix': '" ++ namePrefix ++ "' must not contain '.'"

/-- A leaf of a token table: the keys that lead to it, and its text. -/
structure TokenLeaf where
  keys : List String
  text : String
  deriving DecidableEq, Repr

namespace TokenTable

def directLeaves (above : List String) (table : TokenTable) : List TokenLeaf :=
  table.toList.filterMap fun (key, node) =>
    node.leafText.map fun text => ⟨above ++ [key], text⟩

end TokenTable

mutual

def TokenNode.nestedLeaves (above : List String) : TokenNode → List TokenLeaf
  | .text _ => []
  | .number _ => []
  | .table entries => entries.directLeaves above ++ TokenTable.nestedLeaves above entries

def TokenTable.nestedLeaves (above : List String) : TokenTable → List TokenLeaf
  | .empty => []
  | .entry key node rest =>
    node.nestedLeaves (above ++ [key]) ++ TokenTable.nestedLeaves above rest

end

/-- All leaves: at each table its own ones first, then its nested tables in order. -/
def TokenTable.leaves (table : TokenTable) : List TokenLeaf :=
  table.directLeaves [] ++ table.nestedLeaves []

def TokenLeaf.dotPath (leaf : TokenLeaf) : String :=
  joinWith ['.'] leaf.keys

def TokenLeaf.token (namePrefix : Option String) (leaf : TokenLeaf) : Token :=
  ⟨⟨namePrefix.toList ++ leaf.keys⟩, leaf.text⟩

/-- Of two leaves with one dot path the later one counts, at the place of the earlier one. -/
def indexLeaves (namePrefix : Option String) (leaves : List TokenLeaf) : Register Token :=
  leaves.foldl (fun index leaf => index.put leaf.dotPath (leaf.token namePrefix)) .empty

structure Config where
  settings : Settings
  namePrefix : Option String
  source : Option FilePath
  index : Register Token

namespace Config

def trimmedPrefix (settings : Settings) : Option String :=
  (settings.namePrefix.map trimmed).filter fun namePrefix => !namePrefix.isEmpty

/-- Checks the root font size first, then the prefix. -/
def ofSettings (settings : Settings) : Except ConfigError Config :=
  if !(settings.rootFontSize.isFinite && 0.0 < settings.rootFontSize) then
    .error (.rootFontSize settings.rootFontSize)
  else
    match trimmedPrefix settings with
    | some namePrefix =>
      if namePrefix.toList.contains '.' then .error (.dottedPrefix namePrefix)
      else
        .ok ⟨settings, some namePrefix, none,
          indexLeaves (some namePrefix) settings.tokens.leaves⟩
    | none => .ok ⟨settings, none, none, indexLeaves none settings.tokens.leaves⟩

def withSource (config : Config) (source : FilePath) : Config :=
  { config with source := some source }

def rootFontSize (config : Config) : Float :=
  config.settings.rootFontSize

def injection (config : Config) : Injection :=
  config.settings.injection

def tokens (config : Config) : List Token :=
  config.index.values

/-- Looks a path up as it is, and then, if it starts with the prefix, without the prefix. -/
def find? (config : Config) (path : TokenPath) : Option Token :=
  match config.index.get? path.dotPath with
  | some token => some token
  | none =>
    match config.namePrefix, path.segments with
    | some namePrefix, first :: second :: rest =>
      if first = namePrefix then config.index.get? (joinWith ['.'] (second :: rest)) else none
    | _, _ => none

def get? (config : Config) (dotPath : String) : Option Token :=
  config.find? (TokenPath.ofDotPath dotPath)

end Config

end DesignTokens

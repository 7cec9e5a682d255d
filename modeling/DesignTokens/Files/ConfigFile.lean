import DesignTokens.Config
import DesignTokens.Files.FileSystem
import DesignTokens.Json.Settings
import DesignTokens.Toml.Settings

/-!
Configuration files: finding them, reading them and the ways in which that fails.
-/

namespace DesignTokens

open DesignTokens.Text

inductive ConfigFormat where
  | toml
  | json
  deriving DecidableEq, Repr

namespace ConfigFormat

def name : ConfigFormat → String
  | .toml => "toml"
  | .json => "json"

def ofExtension? (extension : String) : Option ConfigFormat :=
  if lowerCase extension = "toml" then some .toml
  else if lowerCase extension = "json" then some .json
  else none

def ofPath? (path : FilePath) : Option ConfigFormat :=
  path.extension?.bind ofExtension?

def readSettings? (format : ConfigFormat) (text : String) : Option Settings :=
  match format with
  | .toml => Toml.readSettings? text
  | .json => Json.readSettings? text

end ConfigFormat

inductive LoadError where
  | unreadable (path : FilePath) (cause : FileError)
  | malformed (format : ConfigFormat) (path : FilePath)
  | unsupportedFormat (path : FilePath)
  | notFound (root : FilePath)
  | unusable (problem : ConfigError)

/-- What went wrong, and where. What a reader says about the inside of a file is not part of it. -/
def LoadError.message : LoadError → String
  | .unreadable path _ => "Failed to read config '" ++ path.text ++ "'"
  | .malformed .toml path => "Failed to parse TOML config '" ++ path.text ++ "'"
  | .malformed .json path => "Failed to parse JSON config '" ++ path.text ++ "'"
  | .unsupportedFormat path =>
    "Unsupported config format '" ++ path.text ++ "': expected a .toml or .json file"
  | .notFound root => "Could not find Snow config file in '" ++ root.text ++ "'"
  | .unusable problem => problem.message

def configFileNames : List FilePath :=
  [⟨"snow.config.toml"⟩, ⟨"snow.config.json"⟩]

def configPaths (directory : FilePath) : List FilePath :=
  configFileNames.map directory.join

def parseSettings (format : ConfigFormat) (path : FilePath) (text : String) :
    Except LoadError Settings :=
  match format.readSettings? text with
  | some settings => .ok settings
  | none => .error (.malformed format path)

/-- Reads the configuration file at a path. The format is decided before the file is read. -/
def readConfig (files : FileSystem) (path : FilePath) : Except LoadError Config := do
  match ConfigFormat.ofPath? path with
  | none => .error (.unsupportedFormat path)
  | some format =>
    let text ← (files.readText path).mapError (.unreadable path)
    let settings ← parseSettings format path text
    let config ← (Config.ofSettings settings).mapError .unusable
    return config.withSource path

def directoriesAbove (path : FilePath) : List FilePath :=
  match above : path.parent? with
  | none => []
  | some directory =>
    have := path.parent?_length above
    directory :: directoriesAbove directory
termination_by path.text.length

def throughFirst {α : Type} (stops : α → Bool) : List α → List α
  | [] => []
  | x :: rest => if stops x then [x] else x :: throughFirst stops rest

def configIn? (files : FileSystem) (directory : FilePath) : Option FilePath :=
  (configPaths directory).find? files.isFile

/-- The configuration file nearest above a document. The search ends with a workspace root. -/
def findNearestConfig (files : FileSystem) (document : FilePath) (roots : List FilePath) :
    Option FilePath :=
  (throughFirst (fun directory => roots.any directory.same) (directoriesAbove document)).findSome?
    (configIn? files)

structure LoadRequest where
  root : Option FilePath
  /-- A path below the root; otherwise the default names are tried. -/
  path : Option FilePath
  exact : Option FilePath
  deriving DecidableEq, Repr, Inhabited

def LoadRequest.forRoot (root : FilePath) : LoadRequest :=
  ⟨some root, none, none⟩

def LoadRequest.forFile (path : FilePath) : LoadRequest :=
  ⟨none, none, some path⟩

def LoadRequest.file (request : LoadRequest) (files : FileSystem) : Except LoadError FilePath :=
  match request.exact with
  | some exact => .ok exact
  | none =>
    let root := request.root.getD files.currentDirectory
    let candidates := match request.path with
      | some path => [root.join path]
      | none => configPaths root
    match candidates.find? files.holds with
    | some found => .ok found
    | none => .error (.notFound root)

def loadConfig (files : FileSystem) (request : LoadRequest) : Except LoadError Config := do
  readConfig files (← request.file files)

end DesignTokens

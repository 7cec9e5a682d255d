import DesignTokens.Files.FilePath

/-!
A file tree with links, and how paths are followed in it: from left to right, where everything but
the last name has to be a directory or lead to one. A link gives way to the steps of its target.
-/

namespace DesignTokens

/-- A place in the file tree: the names that lead to it from the root. -/
abbrev Place := List (List Char)

inductive FileEntry where
  | file (content : ByteArray)
  | directory
  | link (target : FilePath)

inductive FileError where
  | notFound
  | notADirectory
  | isADirectory
  | invalidData
  | tooManyLinks
  deriving DecidableEq, Repr

/-- What stands at each place, and the place where relative paths start. The root is a directory
whatever the entries say. -/
structure FileSystem where
  entries : Place → Option FileEntry
  workingDirectory : Place

/-- Where a step leads: to a place, or to a link and so to the steps of its target. -/
inductive Landing where
  | place (place : Place)
  | link (start : Place) (target : List PathStep)

namespace FileSystem

def vacant (workingDirectory : Place) : FileSystem :=
  ⟨fun place => if place.isPrefixOf workingDirectory then some .directory else none,
    workingDirectory⟩

def entry? (files : FileSystem) (place : Place) : Option FileEntry :=
  if place.isEmpty then some .directory else files.entries place

def isDirectory (files : FileSystem) (place : Place) : Bool :=
  match files.entry? place with
  | some .directory => true
  | _ => false

/-- A relative target starts in the directory of the link. The empty target leads nowhere. -/
def landOnLink (place : Place) (target : FilePath) : Except FileError Landing :=
  if target.text.isEmpty then .error .notFound
  else .ok (.link (if target.isAbsolute then [] else place) target.trail)

def move (files : FileSystem) (place : Place) (step : PathStep) : Except FileError Landing :=
  if !files.isDirectory place then .error .notADirectory
  else
    match step with
    | .down name =>
      match files.entry? (place ++ [name]) with
      | some (.link target) => landOnLink place target
      | some _ => .ok (.place (place ++ [name]))
      | none => .error .notFound
    | .up => .ok (.place place.dropLast)
    | .root | .here => .ok (.place place)

/-- Follows steps from a place, where `onward` goes on from a link. -/
def stride (files : FileSystem) (links : Nat)
    (onward : Place → List PathStep → Except FileError (Place × Nat)) :
    Place → List PathStep → Except FileError (Place × Nat)
  | place, [] => .ok (place, links)
  | place, step :: steps =>
    match files.move place step with
    | .error problem => .error problem
    | .ok (.place next) => files.stride links onward next steps
    | .ok (.link start target) => onward start (target ++ steps)

/-- Follows steps from a place through no more than a number of links, and tells how many of them
are left. -/
def walk (files : FileSystem) : Nat → Place → List PathStep → Except FileError (Place × Nat)
  | 0 => files.stride 0 fun _ _ => .error .tooManyLinks
  | links + 1 => files.stride (links + 1) (files.walk links)

/-- How many links one path may lead through. -/
def linkLimit : Nat := 40

def pathOf (place : Place) : FilePath :=
  match place with
  | [] => ⟨"/"⟩
  | place => ⟨String.ofList (place.flatMap ('/' :: ·))⟩

def currentDirectory (files : FileSystem) : FilePath :=
  pathOf files.workingDirectory

/-- The steps of a path from the root on. A relative path goes on from the working directory. -/
def trail (files : FileSystem) (path : FilePath) : List PathStep :=
  if path.isAbsolute then path.trail else files.currentDirectory.trail ++ path.trail

/-- The place that a path leads to, if something stands there. The empty path leads nowhere. -/
def resolve (files : FileSystem) (path : FilePath) : Except FileError Place :=
  if path.text.isEmpty then .error .notFound
  else (files.walk linkLimit [] (files.trail path)).map Prod.fst

/-- The absolute path without idle pieces and links, if it leads somewhere. -/
def canonical (files : FileSystem) (path : FilePath) : Except FileError FilePath :=
  (files.resolve path).map pathOf

/-- The canonical path, or the path itself where there is none. -/
def normal (files : FileSystem) (path : FilePath) : FilePath :=
  match files.canonical path with
  | .ok found => found
  | .error _ => path

def holds (files : FileSystem) (path : FilePath) : Bool :=
  match files.resolve path with
  | .ok _ => true
  | .error _ => false

def isFile (files : FileSystem) (path : FilePath) : Bool :=
  match (files.resolve path).toOption.bind files.entry? with
  | some (.file _) => true
  | _ => false

def readText (files : FileSystem) (path : FilePath) : Except FileError String :=
  match files.resolve path with
  | .error problem => .error problem
  | .ok place =>
    match files.entry? place with
    | some (.file content) =>
      match String.fromUTF8? content with
      | some text => .ok text
      | none => .error .invalidData
    | some .directory => .error .isADirectory
    | some (.link _) | none => .error .notFound

def put (files : FileSystem) (place : Place) (entry : FileEntry) : FileSystem :=
  { files with entries := fun other => if other = place then some entry else files.entries other }

def below (files : FileSystem) (place : Place) (name : List Char) : Place :=
  match files.walk linkLimit place [.down name] with
  | .ok (found, _) => found
  | .error _ => place ++ [name]

def enter (files : FileSystem) (place : Place) (step : PathStep) : FileSystem × Place :=
  match step with
  | .root | .here => (files, place)
  | .up => (files, place.dropLast)
  | .down name =>
    let next := files.below place name
    match files.entry? next with
    | some _ => (files, next)
    | none => (files.put next .directory, next)

/-- Follows steps from the root and makes the directories that are missing on the way, also those
that the way leaves again. -/
def enterAll (files : FileSystem) (steps : List PathStep) : FileSystem × Place :=
  steps.foldl (fun (files, place) step => files.enter place step) (files, [])

def stepsFromRoot (files : FileSystem) (path : FilePath) : List PathStep :=
  (files.trail path).filter (· ≠ .here)

def makeDirectories (files : FileSystem) (path : FilePath) : FileSystem :=
  (files.enterAll (files.stepsFromRoot path)).1

def write (files : FileSystem) (path : FilePath) (content : ByteArray) : FileSystem :=
  let (files, place) := files.enterAll (files.stepsFromRoot path).dropLast
  match path.fileName? with
  | some name => files.put (files.below place name) (.file content)
  | none => files

def makeLink (files : FileSystem) (path target : FilePath) : FileSystem :=
  let (files, place) := files.enterAll (files.stepsFromRoot path).dropLast
  match path.fileName? with
  | some name => files.put (place ++ [name]) (.link target)
  | none => files

/-- The place that a path ends at, if something stands there. A link at the end is not followed. -/
def standing? (files : FileSystem) (path : FilePath) : Option Place :=
  match (files.trail path).getLast? with
  | some (.down name) =>
    match files.walk linkLimit [] (files.trail path).dropLast with
    | .ok (place, _) => (files.entry? (place ++ [name])).map fun _ => place ++ [name]
    | .error _ => none
  | _ => (files.resolve path).toOption

def remove (files : FileSystem) (path : FilePath) : FileSystem :=
  match files.standing? path with
  | none => files
  | some place =>
    { files with entries := fun other =>
        if place.isPrefixOf other then none else files.entries other }

end FileSystem

end DesignTokens

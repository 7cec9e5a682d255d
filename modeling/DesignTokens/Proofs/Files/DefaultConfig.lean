import DesignTokens.Proofs.Files.Discovery
import DesignTokens.Proofs.Files.StoreRun

/-!
Loading from a root directory and discovery for a document in it. Both try the default names in the
same order, but loading takes whatever stands there; so they agree unless the first name under which
anything stands is that of a directory.
-/

namespace DesignTokens

open FilePath

/-! The two choices. -/

section

variable {files : FileSystem} {root : FilePath}

/-- The first of the default names under which anything stands in a directory. -/
def heldName? (files : FileSystem) (directory : FilePath) : Option FilePath :=
  configFileNames.find? fun name => files.holds (directory.join name)

theorem loadConfig_forRoot (files : FileSystem) (root : FilePath) :
    loadConfig files (.forRoot root) =
      match heldName? files root with
      | some name => readConfig files (root.join name)
      | none => .error (.notFound root) := by
  have candidates :
      (configPaths root).find? files.holds = (heldName? files root).map root.join := by
    rw [configPaths, List.find?_map]
    rfl
  have asked : (LoadRequest.forRoot root).file files =
      match (configPaths root).find? files.holds with
      | some found => .ok found
      | none => .error (.notFound root) := rfl
  rw [loadConfig, asked, candidates]
  cases heldName? files root with
  | none => rfl
  | some name => rfl

/-- Discovery for a document in a root directory looks nowhere else. -/
theorem findNearestConfig_in_root (files : FileSystem) (root : FilePath) {document : FilePath}
    (proper : ProperName document.text.toList) :
    ∃ directory : FilePath, directory.steps = root.steps ∧
      findNearestConfig files (root.join document) [root] =
        (configName? files directory).map directory.join := by
  have joined := steps_below root proper
  unfold findNearestConfig
  fun_cases directoriesAbove (root.join document) with
  | case1 top =>
    rw [steps_of_parent?_none top] at joined
    have last := congrArg List.getLast? joined
    rw [List.getLast?_concat] at last
    split at last
    · exact nomatch Option.some.inj last
    · contradiction
  | case2 directory above =>
    obtain ⟨-, step, cut⟩ := parent?_steps above
    rw [joined] at cut
    have same := (List.append_inj' cut rfl).1.symm
    have stops : [root].any directory.same = true := by
      rw [List.any_cons, FilePath.same, same, decide_eq_true rfl, Bool.true_or]
    refine ⟨directory, same, ?_⟩
    rw [throughFirst, stops, if_pos rfl, List.findSome?_cons, configIn?_eq]
    cases configName? files directory with
    | none => rfl
    | some name => rfl

/-! Where the choices are the same. -/

def FirstRegular (files : FileSystem) (directory : FilePath) : Prop :=
  ∀ name, heldName? files directory = some name → files.HoldsFile directory name

theorem holds_of_isFile {path : FilePath} (regular : files.isFile path = true) :
    files.holds path = true := by
  obtain ⟨place, content, found, -⟩ := FileSystem.isFile_iff.1 regular
  exact FileSystem.holds_iff.2 ⟨place, found⟩

theorem find?_eq_of_first {α : Type} {strict loose : α → Bool} {places : List α}
    (weaker : ∀ x, strict x = true → loose x = true)
    (first : ∀ x, places.find? loose = some x → strict x = true) :
    places.find? strict = places.find? loose := by
  induction places with
  | nil => rfl
  | cons x places ih =>
    cases passes : loose x with
    | true =>
      have here := List.find?_cons_of_pos (l := places) passes
      rw [here, List.find?_cons_of_pos (first x here)]
    | false =>
      have fails : ¬ loose x = true := Bool.eq_false_iff.1 passes
      have later := List.find?_cons_of_neg (l := places) fails
      rw [later] at first
      rw [later, List.find?_cons_of_neg fun strict => fails (weaker x strict), ih first]

theorem FirstRegular.same_name (regular : FirstRegular files root) :
    configName? files root = heldName? files root := by
  apply find?_eq_of_first
  · exact fun name => holds_of_isFile
  · intro name first
    exact (FileSystem.isFile_default root (List.mem_of_find?_eq_some first)).2 (regular name first)

/-! A directory under a default name. -/

theorem extension?_congr {left right : FilePath} (same : left.fileName? = right.fileName?) :
    left.extension? = right.extension? := by
  rw [extension?, extension?, same]

theorem format_of_default (directory : FilePath) {name : FilePath}
    (default : name ∈ configFileNames) :
    ∃ format, ConfigFormat.ofPath? (directory.join name) = some format := by
  have known : ∀ name ∈ configFileNames, name.fileName? = some name.text.toList ∧
      (ConfigFormat.ofPath? name).isSome = true := by decide +kernel
  obtain ⟨named, format⟩ := known name default
  have last : (directory.join name).fileName? = name.fileName? := by
    rw [named, fileName?, steps_below directory (proper_configFileName default),
      List.getLast?_concat]
  rw [ConfigFormat.ofPath?, extension?_congr last]
  exact Option.isSome_iff_exists.1 format

/-- What a path leads to is a regular file or a directory, since links are followed. -/
theorem readText_directory {path : FilePath} (stands : files.holds path = true)
    (irregular : files.isFile path = false) : files.readText path = .error .isADirectory := by
  obtain ⟨place, found⟩ := FileSystem.holds_iff.1 stands
  have directory : files.entry? place = some .directory := by
    rcases (FileSystem.reached_of_resolve found).entry with entry | ⟨content, entry⟩
    · exact entry
    · rw [FileSystem.isFile_iff.2 ⟨place, content, found, entry⟩] at irregular
      contradiction
  rw [FileSystem.readText, found]
  dsimp only
  rw [directory]

/-- Where the first name is that of a directory, loading fails on it. -/
theorem loadConfig_directory {name : FilePath} (first : heldName? files root = some name)
    (irregular : ¬ files.HoldsFile root name) :
    loadConfig files (.forRoot root) =
      .error (.unreadable (root.join name) .isADirectory) := by
  have default := List.mem_of_find?_eq_some first
  have stands := List.find?_some first
  have blocked : files.isFile (root.join name) = false := by
    rw [Bool.eq_false_iff]
    exact fun regular => irregular ((FileSystem.isFile_default root default).1 regular)
  obtain ⟨format, known⟩ := format_of_default root default
  rw [loadConfig_forRoot, first]
  dsimp only
  rw [readConfig, known, readText_directory stands blocked]
  rfl

end

/-! Agreement. -/

/-- What is found for a document is loaded from the root, and loading from the root reports that
there is no configuration when none is found. -/
def LoadsDiscovered (files : FileSystem) (root document : FilePath) : Prop :=
  (∀ found, findNearestConfig files document [root] = some found →
    ∃ loaded : FilePath, loaded.same found = true ∧ files.resolve loaded = files.resolve found ∧
      loadConfig files (.forRoot root) = readConfig files loaded) ∧
  ((∃ missing, loadConfig files (.forRoot root) = .error (.notFound missing)) ↔
    findNearestConfig files document [root] = none)

section

variable {files : FileSystem} {root document : FilePath}

theorem FirstRegular.loadsDiscovered (regular : FirstRegular files root)
    (proper : ProperName document.text.toList) :
    LoadsDiscovered files root (root.join document) := by
  obtain ⟨directory, same, near⟩ := findNearestConfig_in_root files root proper
  rw [FileSystem.configName?_congr (FileSystem.placeOf_congr same), regular.same_name] at near
  rw [LoadsDiscovered, near, loadConfig_forRoot]
  cases first : heldName? files root with
  | none =>
    constructor
    · intro found missing
      contradiction
    · exact ⟨fun _ => rfl, fun _ => ⟨root, rfl⟩⟩
  | some name =>
    have default := proper_configFileName (List.mem_of_find?_eq_some first)
    constructor
    · intro found joined
      refine ⟨root.join name, ?_, ?_, rfl⟩
      · rw [← Option.some.inj joined, FilePath.same, steps_below root default,
          steps_below directory default, same]
        exact decide_eq_true rfl
      · rw [← Option.some.inj joined, FileSystem.resolve_below root default,
          FileSystem.resolve_below directory default, FileSystem.placeOf_congr same]
    · constructor
      · rintro ⟨missing, failed⟩
        exact (readConfig_concerns failed).elim
      · intro missing
        contradiction

theorem not_loadsDiscovered {name : FilePath} (first : heldName? files root = some name)
    (irregular : ¬ files.HoldsFile root name) : ¬ LoadsDiscovered files root document := by
  rintro ⟨reads, reports⟩
  have failed := loadConfig_directory first irregular
  rw [failed] at reads reports
  cases near : findNearestConfig files document [root] with
  | none =>
    obtain ⟨missing, same⟩ := reports.2 near
    exact nomatch Except.error.inj same
  | some found =>
    obtain ⟨loaded, -, leads, read⟩ := reads found near
    have concerned : root.join name = loaded := readConfig_concerns read.symm
    obtain ⟨directory, -, here⟩ := List.exists_of_findSome?_eq_some near
    have regular : files.isFile found = true := List.find?_some here
    rw [FileSystem.isFile, ← leads, ← concerned] at regular
    have default := List.mem_of_find?_eq_some first
    exact irregular ((FileSystem.isFile_default root default).1 regular)

/-- Loading from a root reads the file that discovery finds for a document in it, and misses a file
when discovery does, if and only if the first of the default names that stands there is that of a
regular file. Where it is that of a directory, loading fails on it, whatever stands under the other
names. -/
theorem default_config_discovered (files : FileSystem) (root document : FilePath)
    (proper : ProperName document.text.toList) :
    (LoadsDiscovered files root (root.join document) ↔ FirstRegular files root) ∧
      ∀ name, heldName? files root = some name → ¬ files.HoldsFile root name →
        loadConfig files (.forRoot root) =
          .error (.unreadable (root.join name) .isADirectory) := by
  refine ⟨⟨fun agrees name first => ?_, fun regular => regular.loadsDiscovered proper⟩, ?_⟩
  · by_contra irregular
    exact not_loadsDiscovered first irregular agrees
  · exact fun name => loadConfig_directory

end

def misnamedDirectory : FileSystem :=
  (((FileSystem.vacant []).write ⟨"/lib/snow.config.json"⟩
    "\x7b\"tokens\":\x7b\x7d\x7d".toUTF8).write ⟨"/app/snow.config.json"⟩
      "\x7b\"tokens\":\x7b\x7d\x7d".toUTF8).makeDirectories ⟨"/app/snow.config.toml"⟩

theorem lone_config_discovered :
    ProperName "x.css".toList ∧ FirstRegular misnamedDirectory ⟨"/lib"⟩ ∧
      LoadsDiscovered misnamedDirectory ⟨"/lib"⟩ (FilePath.join ⟨"/lib"⟩ ⟨"x.css"⟩) ∧
      findNearestConfig misnamedDirectory (FilePath.join ⟨"/lib"⟩ ⟨"x.css"⟩) [⟨"/lib"⟩] =
        some ⟨"/lib/snow.config.json"⟩ := by
  have proper : ProperName "x.css".toList := by
    constructor
    · decide +kernel
    · decide +kernel
  have regular : FirstRegular misnamedDirectory ⟨"/lib"⟩ := by
    have name : heldName? misnamedDirectory ⟨"/lib"⟩ = some ⟨"snow.config.json"⟩ := by
      decide +kernel
    intro other first
    rw [name] at first
    rw [← Option.some.inj first]
    exact (FileSystem.isFile_default _ (by decide)).1 (by decide +kernel)
  have agrees := (default_config_discovered misnamedDirectory ⟨"/lib"⟩ ⟨"x.css"⟩ proper).1.2 regular
  exact ⟨proper, regular, agrees, by decide +kernel⟩

/-- The file beside the directory is found, but loading fails on the directory. -/
theorem misnamed_directory_loaded :
    ProperName "x.css".toList ∧
      findNearestConfig misnamedDirectory (FilePath.join ⟨"/app"⟩ ⟨"x.css"⟩) [⟨"/app"⟩] =
        some ⟨"/app/snow.config.json"⟩ ∧
      loadConfig misnamedDirectory (.forRoot ⟨"/app"⟩) =
        .error (.unreadable ⟨"/app/snow.config.toml"⟩ .isADirectory) ∧
      ¬ LoadsDiscovered misnamedDirectory ⟨"/app"⟩ (FilePath.join ⟨"/app"⟩ ⟨"x.css"⟩) := by
  have first : heldName? misnamedDirectory ⟨"/app"⟩ = some ⟨"snow.config.toml"⟩ := by decide +kernel
  have irregular : ¬ misnamedDirectory.HoldsFile ⟨"/app"⟩ ⟨"snow.config.toml"⟩ := by
    intro holds
    have regular := (FileSystem.isFile_default _ (by decide)).2 holds
    exact absurd regular (by decide +kernel)
  refine ⟨⟨by decide +kernel, by decide +kernel⟩, by decide +kernel, ?_, ?_⟩
  · exact loadConfig_directory first irregular
  · exact not_loadsDiscovered first irregular

end DesignTokens

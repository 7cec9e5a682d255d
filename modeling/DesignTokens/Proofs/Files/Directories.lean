import DesignTokens.Proofs.Files.Places
import Mathlib.Data.List.Find
import Mathlib.Data.Set.List

/-!
The configuration file of a directory. Which one it is depends on the steps of the directory only,
not on how they are spelled.
-/

namespace DesignTokens

open FilePath

/-! The default names. -/

theorem proper_configFileName {name : FilePath} (default : name ∈ configFileNames) :
    ProperName name.text.toList := by
  have each : ∀ name ∈ configFileNames, '/' ∉ name.text.toList ∧
      stepOfPiece? name.text.toList = some (.down name.text.toList) := by decide +kernel
  exact each name default

def configName? (files : FileSystem) (directory : FilePath) : Option FilePath :=
  configFileNames.find? fun name => files.isFile (directory.join name)

theorem configIn?_eq (files : FileSystem) (directory : FilePath) :
    configIn? files directory = (configName? files directory).map directory.join := by
  rw [configIn?, configPaths, List.find?_map]
  rfl

namespace FileSystem

variable {files : FileSystem}

/-- The place of a directory, without the question of what stands there, and how many links may
still follow. -/
def placeOf (files : FileSystem) (directory : FilePath) : Except FileError (Place × Nat) :=
  files.walk linkLimit [] (files.stepsFromRoot directory)

theorem placeOf_congr {directory other : FilePath} (same : directory.steps = other.steps) :
    files.placeOf directory = files.placeOf other := by
  rw [placeOf, placeOf, stepsFromRoot_eq, stepsFromRoot_eq, isAbsolute_congr same,
    stepsOf_eq_filter directory, same, ← stepsOf_eq_filter]

theorem resolve_below (directory : FilePath) {name : FilePath}
    (proper : ProperName name.text.toList) :
    files.resolve (directory.join name) =
      (files.placeOf directory >>= fun (place, links) =>
        files.walk links place [.down name.text.toList]).map Prod.fst := by
  obtain ⟨front, trail, steps⟩ := trail_join directory proper
  have filled : (directory.join name).text.isEmpty = false := by
    rw [Bool.eq_false_iff, ne_eq, String.isEmpty_iff]
    intro empty
    have idle : (directory.join name).trail = [.here] := by
      rw [FilePath.trail, empty]
      rfl
    rw [idle] at trail
    have last := congrArg List.getLast? trail
    simp at last
  have absolute : (directory.join name).isAbsolute = directory.isAbsolute := by
    have kept := join_absolute directory proper
    rwa [String.ofList_toList] at kept
  have walked : files.walk linkLimit [] (files.trail (directory.join name)) =
      files.walk linkLimit [] (files.stepsFromRoot directory ++ [.down name.text.toList]) := by
    rw [stepsFromRoot_eq, FileSystem.trail, absolute, trail]
    cases directory.isAbsolute with
    | true => rw [if_pos rfl, if_pos rfl, walk_filter, steps, List.nil_append]
    | false =>
      rw [if_neg Bool.false_ne_true, if_neg Bool.false_ne_true, ← List.append_assoc, walk_filter,
        List.filter_append, steps, filter_trail]
  rw [resolve, filled, if_neg Bool.false_ne_true, walked, walk_append]
  rfl

theorem resolve_below_eq_ok (directory : FilePath) {name : FilePath}
    (proper : ProperName name.text.toList) {target : Place} :
    files.resolve (directory.join name) = .ok target ↔
      ∃ place links left, files.placeOf directory = .ok (place, links) ∧
        files.walk links place [.down name.text.toList] = .ok (target, left) := by
  rw [resolve_below directory proper]
  cases files.placeOf directory with
  | error problem => simp [bind, Except.bind, Except.map]
  | ok there =>
    obtain ⟨place, links⟩ := there
    cases walked : files.walk links place [.down name.text.toList] with
    | error problem => simp [bind, Except.bind, Except.map, walked]
    | ok result =>
      obtain ⟨last, left⟩ := result
      simp [bind, Except.bind, Except.map, walked]

theorem configName?_congr {directory other : FilePath}
    (same : files.placeOf directory = files.placeOf other) :
    configName? files directory = configName? files other := by
  unfold configName? isFile
  apply List.find?_congr
  intro name default
  have proper := proper_configFileName default
  rw [resolve_below directory proper, resolve_below other proper, same]

/-- The configuration that a directory has by its own names, under its canonical path. -/
def OwnConfig (files : FileSystem) (directory key : FilePath) : Prop :=
  ∃ path, configIn? files directory = some path ∧ files.normal path = key

theorem OwnConfig.unique {directory key other : FilePath} (own : files.OwnConfig directory key)
    (also : files.OwnConfig directory other) : key = other := by
  obtain ⟨path, found, rfl⟩ := own
  obtain ⟨path', found', rfl⟩ := also
  rw [Option.some.inj (found.symm.trans found')]

theorem resolve_of_configIn? {directory path : FilePath}
    (found : configIn? files directory = some path) :
    ∃ target content, files.resolve path = .ok target ∧
      files.entry? target = some (.file content) :=
  isFile_iff.1 (List.find?_some found)

theorem OwnConfig.congr {directory other key : FilePath}
    (same : files.placeOf directory = files.placeOf other) (own : files.OwnConfig directory key) :
    files.OwnConfig other key := by
  obtain ⟨path, found, rfl⟩ := own
  have regular := resolve_of_configIn? found
  rw [configIn?_eq] at found
  obtain ⟨name, chosen, rfl⟩ := Option.map_eq_some_iff.1 found
  have proper := proper_configFileName (List.mem_of_find?_eq_some chosen)
  have resolved : files.resolve (other.join name) = files.resolve (directory.join name) := by
    rw [resolve_below other proper, resolve_below directory proper, same]
  obtain ⟨target, content, found, -⟩ := regular
  refine ⟨other.join name, by rw [configIn?_eq, ← configName?_congr same, chosen]; rfl, ?_⟩
  rw [normal_of_resolve found]
  exact normal_of_resolve (resolved.trans found)

/-! The directory of a canonical path. -/

theorem parent_of_pathOf {place : Place} {directory : FilePath} (reached : files.Reached place)
    (above : (pathOf place).parent? = some directory) :
    ∃ front name, place = front ++ [name] ∧ directory.isAbsolute = true ∧
      directory.steps = .root :: front.map .down := by
  obtain ⟨kept, last, steps⟩ := parent?_steps above
  have absolute := kept.trans (pathOf_absolute place)
  rw [steps_pathOf reached.proper, steps_absolute absolute] at steps
  rcases List.eq_nil_or_concat place with rfl | ⟨front, name, rfl⟩
  · simp at steps
  · rw [List.concat_eq_append, List.map_append, ← List.cons_append] at steps
    have whole := (List.append_inj' steps rfl).1
    exact ⟨front, name, List.concat_eq_append, absolute, by rw [steps_absolute absolute, whole]⟩

theorem placeOf_reached {place : Place} {directory : FilePath} (reached : files.Reached place)
    (absolute : directory.isAbsolute = true)
    (steps : directory.steps = .root :: place.map .down) :
    files.placeOf directory = .ok (place, linkLimit) := by
  rw [steps_absolute absolute] at steps
  have walked := reached.walk_names linkLimit []
  rw [List.append_nil, walk_nil] at walked
  rw [placeOf, stepsFromRoot_eq, absolute, if_pos rfl, List.nil_append, (List.cons.inj steps).2,
    walked]

/-! Trees without links. -/

def Linkless (files : FileSystem) : Prop :=
  ∀ place target, files.entry? place ≠ some (.link target)

/-- Without links a path leads where it spells. -/
theorem Linkless.walk (linkless : files.Linkless) {links left : Nat} {place target : Place}
    {steps : List PathStep} (walked : files.walk links place steps = .ok (target, left)) :
    left = links ∧ target = steps.foldl Place.land place := by
  induction links, place, steps using files.walk_induction with
  | done links place =>
    rw [walk_nil] at walked
    obtain ⟨rfl, rfl⟩ := Prod.mk.inj (Except.ok.inj walked)
    exact ⟨rfl, rfl⟩
  | stuck links place step steps problem moved =>
    rw [walk_error _ moved] at walked
    contradiction
  | goes links place step steps next moved ih =>
    rw [walk_place _ moved] at walked
    cases move_place moved
    exact ih walked
  | spent place step steps start target moved =>
    obtain ⟨-, path, name, -, link⟩ := move_link moved
    exact absurd link (linkless _ path)
  | linked links place step steps start target moved ih =>
    obtain ⟨-, path, name, -, link⟩ := move_link moved
    exact absurd link (linkless _ path)

theorem foldl_land (place names : Place) :
    (names.map PathStep.down).foldl Place.land place = place ++ names := by
  induction names generalizing place with
  | nil => exact (List.append_nil place).symm
  | cons name names ih =>
    rw [List.map_cons, List.foldl_cons, ih, Place.land, List.append_assoc, List.singleton_append]

theorem proper_of_mem_stepsFromRoot {path : FilePath} {name : List Char}
    (member : .down name ∈ files.stepsFromRoot path) : ProperName name :=
  proper_of_mem_trail (List.mem_filter.1 member).1

theorem Linkless.placeOf_parent (linkless : files.Linkless) {base path directory : FilePath}
    (found : configIn? files base = some path)
    (above : (files.normal path).parent? = some directory) :
    ∃ place, files.placeOf base = .ok (place, linkLimit) ∧
      files.placeOf directory = .ok (place, linkLimit) ∧
      directory.steps = .root :: place.map .down := by
  obtain ⟨target, content, resolved, -⟩ := resolve_of_configIn? found
  rw [configIn?_eq] at found
  obtain ⟨name, chosen, rfl⟩ := Option.map_eq_some_iff.1 found
  have proper := proper_configFileName (List.mem_of_find?_eq_some chosen)
  obtain ⟨place, links, left, there, walked⟩ := (resolve_below_eq_ok base proper).1 resolved
  obtain ⟨rfl, -⟩ := linkless.walk there
  obtain ⟨-, spelled⟩ := linkless.walk walked
  have reached : files.Reached place :=
    Reached.root.walk (fun _ => proper_of_mem_stepsFromRoot) there
  rw [normal_of_resolve resolved] at above
  obtain ⟨front, last, split, absolute, steps⟩ :=
    parent_of_pathOf (reached_of_resolve resolved) above
  rw [spelled] at split
  obtain ⟨rfl, -⟩ := List.append_inj' split rfl
  exact ⟨place, there, placeOf_reached reached absolute steps, steps⟩

/-- Without links an absolute path that never goes up spells the place that it leads to. -/
theorem Linkless.spelled (linkless : files.Linkless) {directory : FilePath} {place : Place}
    {links : Nat} (absolute : directory.isAbsolute = true) (down : .up ∉ directory.steps)
    (there : files.placeOf directory = .ok (place, links)) :
    directory.steps = .root :: place.map .down := by
  have named : stepsOf directory.text.toList ∈ Set.range (List.map PathStep.down) := by
    rw [Set.range_list_map]
    intro step member
    rcases mem_stepsOf member with rfl | ⟨name, rfl, -⟩
    · rw [steps_absolute absolute] at down
      exact absurd (List.mem_cons_of_mem _ member) down
    · exact ⟨name, rfl⟩
  obtain ⟨names, spelled⟩ := named
  obtain ⟨-, land⟩ := linkless.walk there
  rw [stepsFromRoot_eq, absolute, if_pos rfl, ← spelled, List.nil_append, foldl_land,
    List.nil_append] at land
  rw [steps_absolute absolute, ← spelled, land]

end FileSystem

/-! Searching upwards. -/

/-- A search goes past what neither stops it nor gives a result. -/
theorem throughFirst_append {α : Type} {stops : α → Bool} {nearer : List α}
    (passed : ∀ x ∈ nearer, stops x = false) (rest : List α) :
    throughFirst stops (nearer ++ rest) = nearer ++ throughFirst stops rest := by
  induction nearer with
  | nil => rfl
  | cons x nearer ih =>
    obtain ⟨first, others⟩ := List.forall_mem_cons.1 passed
    rw [List.cons_append, throughFirst, first, if_neg Bool.false_ne_true, ih others]
    rfl

theorem findSome?_throughFirst {α β : Type} {stops : α → Bool} {search : α → Option β}
    {nearer farther : List α} {here : α} {result : β}
    (passed : ∀ x ∈ nearer, stops x = false) (empty : ∀ x ∈ nearer, search x = none)
    (found : search here = some result) :
    (throughFirst stops (nearer ++ here :: farther)).findSome? search = some result := by
  have skipped : nearer.findSome? search = none := List.findSome?_eq_none_iff.2 empty
  rw [throughFirst_append passed, List.findSome?_append, skipped, Option.none_or, throughFirst]
  split
  · rw [List.findSome?_cons, found]
  · rw [List.findSome?_cons, found]

theorem findSome?_throughFirst_eq_some {α β : Type} {stops : α → Bool} {search : α → Option β}
    {places : List α} {result : β}
    (found : (throughFirst stops places).findSome? search = some result) :
    ∃ nearer here farther, places = nearer ++ here :: farther ∧ search here = some result ∧
      ∀ x ∈ nearer, stops x = false ∧ search x = none := by
  induction places with
  | nil => contradiction
  | cons x places ih =>
    rw [throughFirst] at found
    cases first : search x with
    | some value =>
      have same : value = result := by
        split at found <;> simpa [first] using found
      exact ⟨[], x, places, rfl, by rw [first, same], fun y member => nomatch member⟩
    | none =>
      cases stopped : stops x with
      | true => simp [stopped, first] at found
      | false =>
        rw [stopped, if_neg Bool.false_ne_true, List.findSome?_cons, first] at found
        obtain ⟨nearer, here, farther, split, value, passed⟩ := ih found
        refine ⟨x :: nearer, here, farther, by rw [split]; rfl, value, ?_⟩
        exact List.forall_mem_cons.2 ⟨⟨stopped, first⟩, passed⟩

end DesignTokens

import DesignTokens.Proofs.Files.Directories

/-!
Which configuration file is found for a document: the one in the nearest directory above it that
holds one, unless a workspace root lies nearer.
-/

namespace DesignTokens

open FilePath

/-! The directories above a path. -/

/-- The beginnings of the steps of a path, the longest first; the root stays in all of them. -/
def stepsAbove (path : FilePath) : List (List PathStep) :=
  let kept := if path.isAbsolute then 1 else 0
  (List.range (path.steps.length - kept)).map fun i => path.steps.take (path.steps.length - (i + 1))

theorem stepsAbove_parent {path directory : FilePath} (above : path.parent? = some directory) :
    stepsAbove path = directory.steps :: stepsAbove directory := by
  obtain ⟨kept, step, cut⟩ := parent?_steps above
  have fixed : (if directory.isAbsolute then 1 else 0) ≤ directory.steps.length := by
    cases absolute : directory.isAbsolute with
    | true =>
      rw [steps_absolute absolute]
      simp
    | false => simp
  have count : (directory.steps ++ [step]).length - (if directory.isAbsolute then 1 else 0) =
      directory.steps.length - (if directory.isAbsolute then 1 else 0) + 1 := by
    rw [List.length_append, List.length_singleton]
    omega
  rw [stepsAbove, ← kept, cut, count, List.range_succ_eq_map, List.map_cons, List.map_map]
  apply congrArg₂ List.cons
  · rw [List.length_append, List.length_singleton, Nat.add_sub_cancel]
    exact List.take_left
  · apply List.map_congr_left
    intro i _
    have shorter : (directory.steps ++ [step]).length - (i.succ + 1) =
        directory.steps.length - (i + 1) := by
      rw [List.length_append, List.length_singleton]
      omega
    rw [Function.comp_apply, shorter]
    exact List.take_append_of_le_length (Nat.sub_le _ _)

theorem stepsAbove_top {path : FilePath} (top : path.parent? = none) : stepsAbove path = [] := by
  rw [stepsAbove, steps_of_parent?_none top]
  cases path.isAbsolute with
  | true => rfl
  | false => rfl

theorem map_steps_directoriesAbove (path : FilePath) :
    (directoriesAbove path).map FilePath.steps = stepsAbove path := by
  fun_induction directoriesAbove path with
  | case1 path top => exact (stepsAbove_top top).symm
  | case2 path directory above _ ih => rw [List.map_cons, ih, stepsAbove_parent above]

/-! The configuration of one directory. -/

namespace FileSystem

variable {files : FileSystem}

def LinksToFile (files : FileSystem) (links : Nat) (place : Place) (link : FilePath) : Prop :=
  ∃ fewer start target last left content, links = fewer + 1 ∧
    landOnLink place link = .ok (.link start target) ∧
    files.walk fewer start target = .ok (last, left) ∧ files.entry? last = some (.file content)

/-- A directory that is there and has a regular file of the name in it, or a link to one. -/
def HoldsFile (files : FileSystem) (directory name : FilePath) : Prop :=
  ∃ place links, files.placeOf directory = .ok (place, links) ∧ files.isDirectory place = true ∧
    ((∃ content, files.entry? (place ++ [name.text.toList]) = some (.file content)) ∨
      ∃ link, files.entry? (place ++ [name.text.toList]) = some (.link link) ∧
        files.LinksToFile links place link)

theorem walk_file_iff {links : Nat} {place : Place} {name : List Char} :
    (∃ target left content, files.walk links place [.down name] = .ok (target, left) ∧
        files.entry? target = some (.file content)) ↔
      files.isDirectory place = true ∧
        ((∃ content, files.entry? (place ++ [name]) = some (.file content)) ∨
          ∃ link, files.entry? (place ++ [name]) = some (.link link) ∧
            files.LinksToFile links place link) := by
  cases stands : files.isDirectory place with
  | false => simp [walk_error _ (move_stuck stands _)]
  | true =>
    cases found : files.entry? (place ++ [name]) with
    | none => simp [walk_error _ (move_missing stands found)]
    | some entry =>
      cases entry with
      | file content => simp [walk_place _ (move_file stands found), walk_nil, found]
      | directory => simp [walk_place _ (move_directory stands found), walk_nil, found]
      | link path =>
        have moved := move_through stands found
        cases landed : landOnLink place path with
        | error problem =>
          rw [landed] at moved
          simp [walk_error _ moved, LinksToFile, landed]
        | ok landing =>
          obtain ⟨start, rfl, -⟩ := landOnLink_eq_ok landed
          rw [landed] at moved
          cases links with
          | zero => simp [walk_spent _ moved, LinksToFile]
          | succ fewer => simp [walk_link _ moved, LinksToFile, landed]

theorem isFile_join (directory : FilePath) {name : FilePath}
    (proper : ProperName name.text.toList) :
    files.isFile (directory.join name) = true ↔ files.HoldsFile directory name := by
  rw [isFile_iff]
  constructor
  · rintro ⟨target, content, resolved, found⟩
    obtain ⟨place, links, left, there, walked⟩ := (resolve_below_eq_ok directory proper).1 resolved
    exact ⟨place, links, there, walk_file_iff.1 ⟨target, left, content, walked, found⟩⟩
  · rintro ⟨place, links, there, stands⟩
    obtain ⟨target, left, content, walked, found⟩ := walk_file_iff.2 stands
    have resolved := (resolve_below_eq_ok directory proper).2 ⟨place, links, left, there, walked⟩
    exact ⟨target, content, resolved, found⟩

theorem isFile_default (directory : FilePath) {name : FilePath} (default : name ∈ configFileNames) :
    files.isFile (directory.join name) = true ↔ files.HoldsFile directory name :=
  isFile_join directory (proper_configFileName default)

def Prefers (files : FileSystem) (directory name : FilePath) : Prop :=
  files.HoldsFile directory name ∧ ∃ before after, configFileNames = before ++ name :: after ∧
    ∀ other ∈ before, ¬ files.HoldsFile directory other

theorem configName?_eq_some {directory name : FilePath} :
    configName? files directory = some name ↔ files.Prefers directory name := by
  rw [configName?, List.find?_eq_some_iff_append, Prefers]
  constructor
  · rintro ⟨regular, before, after, names, passed⟩
    have default : name ∈ configFileNames := names ▸ List.mem_append_right before List.mem_cons_self
    refine ⟨(isFile_default directory default).1 regular, before, after, names, ?_⟩
    intro other earlier holds
    have sooner : other ∈ configFileNames := names ▸ List.mem_append_left _ earlier
    have kept := passed other earlier
    rw [(isFile_default directory sooner).2 holds] at kept
    contradiction
  · rintro ⟨holds, before, after, names, passed⟩
    have default : name ∈ configFileNames := names ▸ List.mem_append_right before List.mem_cons_self
    refine ⟨(isFile_default directory default).2 holds, before, after, names, ?_⟩
    intro other earlier
    have sooner : other ∈ configFileNames := names ▸ List.mem_append_left _ earlier
    rw [Bool.not_eq_true', Bool.eq_false_iff]
    exact fun regular => passed other earlier ((isFile_default directory sooner).1 regular)

def Without (files : FileSystem) (directory : FilePath) : Prop :=
  ∀ name ∈ configFileNames, ¬ files.HoldsFile directory name

theorem configIn?_eq_some {directory path : FilePath} :
    configIn? files directory = some path ↔
      ∃ name, files.Prefers directory name ∧ path = directory.join name := by
  rw [configIn?_eq, Option.map_eq_some_iff]
  constructor
  · rintro ⟨name, chosen, joined⟩
    exact ⟨name, configName?_eq_some.1 chosen, joined.symm⟩
  · rintro ⟨name, chosen, joined⟩
    exact ⟨name, configName?_eq_some.2 chosen, joined.symm⟩

theorem configIn?_eq_none {directory : FilePath} :
    configIn? files directory = none ↔ files.Without directory := by
  rw [configIn?_eq, Option.map_eq_none_iff, configName?, List.find?_eq_none]
  constructor
  · intro none name default holds
    exact none name default ((isFile_default directory default).2 holds)
  · intro without name default regular
    exact without name default ((isFile_default directory default).1 regular)

end FileSystem

/-! The search. -/

theorem getElem?_throughFirst {α : Type} {stops : α → Bool} {places : List α} {i : Nat} {x : α} :
    (throughFirst stops places)[i]? = some x ↔
      places[i]? = some x ∧ ∀ j < i, ∀ y, places[j]? = some y → stops y = false := by
  induction places generalizing i with
  | nil => simp [throughFirst]
  | cons first places ih =>
    cases i with
    | zero => cases stopped : stops first <;> simp [throughFirst, stopped]
    | succ i =>
      cases stopped : stops first with
      | true =>
        constructor
        · intro found
          simp [throughFirst, stopped] at found
        · rintro ⟨_, passed⟩
          have goes := passed 0 (Nat.succ_pos i) first rfl
          rw [stopped] at goes
          contradiction
      | false =>
        rw [throughFirst, stopped, if_neg Bool.false_ne_true, List.getElem?_cons_succ,
          List.getElem?_cons_succ, ih]
        apply and_congr_right
        intro _
        constructor
        · intro passed j below y found
          cases j with
          | zero => exact Option.some.inj found ▸ stopped
          | succ j => exact passed j (Nat.lt_of_succ_lt_succ below) y found
        · intro passed j below
          exact passed (j + 1) (Nat.succ_lt_succ below)

theorem findSome?_eq_some_getElem? {α β : Type} {search : α → Option β} {places : List α}
    {result : β} :
    places.findSome? search = some result ↔
      ∃ (i : Nat) (x : α), places[i]? = some x ∧ search x = some result ∧
        ∀ j < i, ∀ y, places[j]? = some y → search y = none := by
  rw [List.findSome?_eq_some_iff]
  constructor
  · rintro ⟨nearer, x, farther, split, found, passed⟩
    refine ⟨nearer.length, x, by rw [split]; simp, found, ?_⟩
    intro j below y there
    rw [split, List.getElem?_append_left below] at there
    exact passed y (List.mem_of_getElem? there)
  · rintro ⟨i, x, there, found, passed⟩
    obtain ⟨within, value⟩ := List.getElem?_eq_some_iff.1 there
    refine ⟨places.take i, x, places.drop (i + 1), ?_, found, ?_⟩
    · rw [← value, List.getElem_cons_drop, List.take_append_drop]
    · intro y member
      obtain ⟨j, below⟩ := List.mem_iff_getElem?.1 member
      rw [List.getElem?_take] at below
      split at below
      · rename_i earlier
        exact passed j earlier y below
      · contradiction

/-- The directory that a search for a document visits at a position: none nearer is a root. -/
def Visited (document : FilePath) (roots : List FilePath) (i : Nat) (directory : FilePath) : Prop :=
  (directoriesAbove document)[i]? = some directory ∧
    ∀ j < i, ∀ nearer, (directoriesAbove document)[j]? = some nearer →
      ∀ root ∈ roots, nearer.steps ≠ root.steps

theorem visited_iff {document : FilePath} {roots : List FilePath} {i : Nat} {directory : FilePath} :
    (throughFirst (fun directory => roots.any directory.same) (directoriesAbove document))[i]? =
      some directory ↔ Visited document roots i directory := by
  simp [getElem?_throughFirst, Visited, same]

/-- The search for a document goes through the directories above it, the nearest first and none
after a workspace root, and finds the preferred configuration file of the first that has one. -/
theorem nearest_config_found (files : FileSystem) (document : FilePath) (roots : List FilePath) :
    (directoriesAbove document).map FilePath.steps = stepsAbove document ∧
      (∀ path, findNearestConfig files document roots = some path ↔
        ∃ i directory name, Visited document roots i directory ∧ files.Prefers directory name ∧
          path = directory.join name ∧
          ∀ j < i, ∀ nearer, Visited document roots j nearer → files.Without nearer) ∧
      (findNearestConfig files document roots = none ↔
        ∀ i directory, Visited document roots i directory → files.Without directory) := by
  refine ⟨map_steps_directoriesAbove document, fun path => ?_, ?_⟩
  · rw [findNearestConfig, findSome?_eq_some_getElem?]
    simp only [visited_iff, FileSystem.configIn?_eq_some, FileSystem.configIn?_eq_none]
    constructor
    · rintro ⟨i, directory, visited, ⟨name, chosen, joined⟩, passed⟩
      exact ⟨i, directory, name, visited, chosen, joined, passed⟩
    · rintro ⟨i, directory, name, visited, chosen, joined, passed⟩
      exact ⟨i, directory, visited, ⟨name, chosen, joined⟩, passed⟩
  · rw [findNearestConfig, List.findSome?_eq_none_iff]
    constructor
    · intro none i directory visited
      have member := List.mem_of_getElem? (visited_iff.2 visited)
      exact FileSystem.configIn?_eq_none.1 (none directory member)
    · intro without directory member
      obtain ⟨i, there⟩ := List.mem_iff_getElem?.1 member
      exact FileSystem.configIn?_eq_none.2 (without i directory (visited_iff.1 there))

end DesignTokens

import DesignTokens.Proofs.Files.Places
import DesignTokens.Proofs.Files.StoreRun

/-!
How long a path finds what was loaded for it. The entry itself stays until its key is invalidated,
but the key of a path is made anew at every operation, and it is the canonical path at that moment.
So it changes when a link on the way is turned elsewhere, and when the file is removed, unless the
path is the canonical one.
-/

namespace DesignTokens

open FilePath

/-! The same key. -/

theorem same_iff {left right : FilePath} : left.same right = true ↔ left.steps = right.steps :=
  decide_eq_true_iff

namespace FileSystem

variable {files later : FileSystem}

/-- Whether a path has the same key at two times: it leads to one place, or to none, or it is the
canonical path of the only place that it leads to. -/
def SameKey (files later : FileSystem) (path : FilePath) : Prop :=
  match files.resolve path, later.resolve path with
  | .ok place, .ok other => other = place
  | .ok place, .error _ | .error _, .ok place => path.steps = (pathOf place).steps
  | .error _, .error _ => True

theorem same_normal_iff (files later : FileSystem) (path : FilePath) :
    (later.normal path).same (files.normal path) = true ↔ SameKey files later path := by
  rw [same_iff, SameKey]
  cases before : files.resolve path with
  | error problem =>
    rw [normal_of_unresolved before]
    cases after : later.resolve path with
    | error other =>
      rw [normal_of_unresolved after]
      exact iff_of_true rfl trivial
    | ok place =>
      rw [normal_of_resolve after]
      exact eq_comm
  | ok place =>
    rw [normal_of_resolve before]
    cases after : later.resolve path with
    | error other =>
      rw [normal_of_unresolved after]
    | ok other =>
      rw [normal_of_resolve after]
      exact steps_pathOf_inj (reached_of_resolve after).proper (reached_of_resolve before).proper

end FileSystem

namespace Store

variable {store : Store} {key other : FilePath} {config : Config}

theorem find?_congr (same : key.same other = true) : store.find? key = store.find? other := by
  unfold find?
  simp only [FilePath.same, same_iff.1 same]

theorem find?_extended_self (absent : store.find? key = none) (config : Config) :
    (store.extended key config).find? key = some config := by
  have earlier : store.entries.find? (fun entry => entry.1.same key) = none :=
    Option.map_eq_none_iff.1 absent
  have last : [(key, config)].find? (fun entry => entry.1.same key) = some (key, config) :=
    List.find?_cons_of_pos (same_self key)
  rw [find?, extended, List.find?_append, earlier, Option.none_or, last, Option.map_some]

theorem find?_extended (found : store.find? key = some config) (other : FilePath)
    (added : Config) : (store.extended other added).find? key = some config := by
  obtain ⟨entry, first, same⟩ := Option.map_eq_some_iff.1 found
  rw [find?, extended, List.find?_append, first, Option.some_or, Option.map_some, same]

theorem find?_invalidate {files : FileSystem} {path : FilePath}
    (spared : key.same (files.normal path) = false) :
    (store.invalidate files path).2.find? key = store.find? key := by
  unfold find? invalidate
  rw [List.find?_filter]
  congr 2
  funext entry
  cases here : entry.1.same key with
  | false => simp
  | true =>
    have elsewhere : entry.1.same (files.normal path) = false := by
      rw [FilePath.same, same_iff.1 here]
      exact spared
    simp [elsewhere]

theorem find?_invalidate_self {files : FileSystem} {path : FilePath}
    (named : key.same (files.normal path) = true) :
    (store.invalidate files path).2.find? key = none := by
  rw [find?_eq_none]
  intro entry member
  have kept := (List.mem_filter.1 member).2
  rw [Bool.not_eq_true'] at kept
  rw [FilePath.same, same_iff.1 named]
  exact kept

end Store

namespace StoreState

variable {state : StoreState} {key path : FilePath} {config : Config}

def Spares (state : StoreState) (key : FilePath) : StoreEvent → Prop
  | .invalidate path => key.same (state.files.normal path) = false
  | .invalidateAll => False
  | _ => True

def SparesAll (state : StoreState) (key : FilePath) : List StoreEvent → Prop
  | [] => True
  | event :: events => state.Spares key event ∧ (state.after event).SparesAll key events

theorem LookedUp.find? {before : StoreState} {result : StoreAnswer × StoreState}
    (lookedUp : before.LookedUp result) (found : before.store.find? key = some config) :
    result.2.store.find? key = some config := by
  cases lookedUp with
  | kept => exact found
  | read absent built => exact Store.find?_extended found _ _
  | failed absent broken => exact found

theorem after_find? (found : state.store.find? key = some config) {event : StoreEvent}
    (spares : state.Spares key event) : (state.after event).store.find? key = some config := by
  cases event with
  | get | getOrLoad | forDocument => exact (state.step_lookedUp rfl).find? found
  | insert path added =>
    rcases state.after_insert path added with kept | ⟨-, grown⟩
    · rw [kept]
      exact found
    · rw [grown]
      exact Store.find?_extended found _ _
  | invalidate path => exact (Store.find?_invalidate spares).trans found
  | invalidateAll => exact spares.elim
  | edit change => exact found

theorem run_find? (found : state.store.find? key = some config) {events : List StoreEvent}
    (spares : state.SparesAll key events) : (state.run events).store.find? key = some config := by
  induction events generalizing state with
  | nil => exact found
  | cons event events ih => exact ih (after_find? found spares.1) spares.2

theorem find?_of_getOrLoad (loaded : (state.step (.getOrLoad path)).1 = .found (some config)) :
    (state.after (.getOrLoad path)).store.find? (state.files.normal path) = some config := by
  have looked := state.store.getOrLoad_lookUp state.files path
  rw [step] at loaded
  rw [after, step]
  generalize state.store.getOrLoad state.files path = result at looked loaded
  cases looked with
  | known found =>
    cases loaded
    exact found
  | read absent built =>
    cases loaded
    exact Store.find?_extended_self absent config
  | failed absent broken => contradiction

structure Remembers (state : StoreState) (path : FilePath) (config : Config) : Prop where
  get : state.store.get? state.files path = some config
  getOrLoad : state.store.getOrLoad state.files path = .ok (config, state.store)
  invalidated : (state.store.invalidate state.files path).1 = true
  dropped : (state.after (.invalidate path)).store.find? (state.files.normal path) = none

theorem remembers_of_find? (found : state.store.find? (state.files.normal path) = some config) :
    state.Remembers path config where
  get := found
  getOrLoad := by
    rw [Store.getOrLoad, found]
  invalidated := by
    rw [Store.invalidate, found]
    rfl
  dropped := Store.find?_invalidate_self (Store.same_self _)

end StoreState

/-- Once a path is loaded, its entry stays until its key is invalidated or all entries are. The path
finds it exactly as long as its key is the same. Otherwise invalidating the path leaves the entry. -/
theorem loaded_path_remembered {state : StoreState} {path : FilePath} {config : Config}
    (loaded : (state.step (.getOrLoad path)).1 = .found (some config)) {events : List StoreEvent}
    (spared : (state.after (.getOrLoad path)).SparesAll (state.files.normal path) events) :
    let later := (state.after (.getOrLoad path)).run events
    later.store.find? (state.files.normal path) = some config ∧
      (FileSystem.SameKey state.files later.files path → later.Remembers path config) ∧
      (¬ FileSystem.SameKey state.files later.files path →
        (later.files.normal path).same (state.files.normal path) = false ∧
          (later.after (.invalidate path)).store.find? (state.files.normal path) = some config) := by
  intro later
  have found : later.store.find? (state.files.normal path) = some config :=
    StoreState.run_find? (StoreState.find?_of_getOrLoad loaded) spared
  have keys := FileSystem.same_normal_iff state.files later.files path
  refine ⟨found, fun same => ?_, fun changed => ?_⟩
  · apply StoreState.remembers_of_find?
    rw [Store.find?_congr (keys.2 same)]
    exact found
  · have other := eq_false_of_ne_true fun same => changed (keys.1 same)
    exact ⟨other, StoreState.after_find? found (Store.same_symm other)⟩

def loneFile : FileSystem :=
  (FileSystem.vacant []).write ⟨"/snow.config.json"⟩ "\x7b\"tokens\":\x7b\x7d\x7d".toUTF8

def loneFileRemoval : StoreEvent :=
  .edit (FileSystem.remove · ⟨"/snow.config.json"⟩)

def loneFileEdits : List StoreEvent :=
  [.edit (FileSystem.write · ⟨"/snow.config.json"⟩ "\x7b\x7d".toUTF8), loneFileRemoval]

theorem StoreAnswer.eq_found {answer : StoreAnswer} (given : answer.config?.isSome = true) :
    ∃ config, answer = .found (some config) := by
  cases answer with
  | found config =>
    obtain ⟨config, rfl⟩ := Option.isSome_iff_exists.1 given
    exact ⟨config, rfl⟩
  | failed | dropped | edited => contradiction

/-- Under its absolute path a file that was changed and removed is still known. -/
theorem removed_file_remembered :
    ∃ config, ((StoreState.start loneFile).step (.getOrLoad ⟨"/snow.config.json"⟩)).1 =
        .found (some config) ∧
      ((StoreState.start loneFile).after (.getOrLoad ⟨"/snow.config.json"⟩)).SparesAll
        (loneFile.normal ⟨"/snow.config.json"⟩) loneFileEdits ∧
      (((StoreState.start loneFile).after (.getOrLoad ⟨"/snow.config.json"⟩)).run
        loneFileEdits).Remembers ⟨"/snow.config.json"⟩ config := by
  have given : ((StoreState.start loneFile).step
      (.getOrLoad ⟨"/snow.config.json"⟩)).1.config?.isSome = true := by decide +kernel
  obtain ⟨config, loaded⟩ := StoreAnswer.eq_found given
  have spared : ((StoreState.start loneFile).after (.getOrLoad ⟨"/snow.config.json"⟩)).SparesAll
      (loneFile.normal ⟨"/snow.config.json"⟩) loneFileEdits := ⟨trivial, trivial, trivial⟩
  have remembered := (loaded_path_remembered loaded spared).2.1
  rw [← FileSystem.same_normal_iff] at remembered
  exact ⟨config, loaded, spared, remembered (by decide +kernel)⟩

/-- Under a relative path a removed file is forgotten, although its entry stays. -/
theorem removed_relative_file_forgotten :
    (∃ config, ((StoreState.start loneFile).step (.getOrLoad ⟨"snow.config.json"⟩)).1 =
        .found (some config)) ∧
      (let later := ((StoreState.start loneFile).after (.getOrLoad ⟨"snow.config.json"⟩)).after
        loneFileRemoval
      later.store.get? later.files ⟨"snow.config.json"⟩ = none ∧
        (later.store.getOrLoad later.files ⟨"snow.config.json"⟩).isOk = false ∧
        (later.store.invalidate later.files ⟨"snow.config.json"⟩).1 = false ∧
        (later.after (.invalidate ⟨"snow.config.json"⟩)).store.paths =
          [⟨"/snow.config.json"⟩]) := by
  refine ⟨StoreAnswer.eq_found (by decide +kernel), ?_, by decide +kernel, by decide +kernel,
    by decide +kernel⟩
  exact Option.isNone_iff_eq_none.1 (by decide +kernel)

end DesignTokens

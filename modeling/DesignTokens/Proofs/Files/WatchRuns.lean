import DesignTokens.Files.Watcher
import DesignTokens.Proofs.Files.StoreKeys

/-!
Runs of a watcher, where files come and go between its calls. A file is watched under the canonical
path that it has when the watch begins, and given up under the one that it has when the watch ends.
Where the path leads elsewhere by then, another watch may end in its place; where it leads nowhere
any more, ending the watch does nothing and says that all is well.
-/

namespace DesignTokens

namespace FileSystem

variable {files : FileSystem} {path : FilePath}

theorem canonical_of_holds (holds : files.holds path = true) :
    files.canonical path = .ok (files.normal path) := by
  obtain ⟨place, found⟩ := holds_iff.1 holds
  rw [normal_of_resolve found, canonical, found]
  rfl

theorem canonical_of_missing (missing : files.holds path = false) :
    ∃ cause, files.canonical path = .error cause := by
  cases found : files.resolve path with
  | error cause => exact ⟨cause, by rw [canonical, found]; rfl⟩
  | ok place =>
    rw [holds, found] at missing
    contradiction

end FileSystem

namespace Watcher

variable {watcher : Watcher} {files : FileSystem} {path : FilePath}

theorem watches_congr {other : FilePath} (same : other.same path = true) :
    watcher.watches other = watcher.watches path := by
  have steps : other.same = path.same := by
    funext third
    rw [FilePath.same, FilePath.same, same_iff.1 same]
  rw [watches, watches, steps]

theorem watch_missing (watcher : Watcher) (missing : files.holds path = false) :
    ∃ cause, watcher.watch files path = .error (.unreadable path cause) := by
  obtain ⟨cause, found⟩ := FileSystem.canonical_of_missing missing
  exact ⟨cause, by rw [watch, found]⟩

/-- What leads somewhere is watched under its normal path, besides what was watched before. -/
theorem watch_holds (watcher : Watcher) (holds : files.holds path = true) :
    ∃ later, watcher.watch files path = .ok later ∧
      ∀ other, later.watches other = (watcher.watches other || other.same (files.normal path)) := by
  rw [watch, FileSystem.canonical_of_holds holds]
  dsimp only
  cases known : watcher.watches (files.normal path) with
  | true =>
    refine ⟨watcher, rfl, fun other => ?_⟩
    cases same : other.same (files.normal path) with
    | false => rw [Bool.or_false]
    | true => rw [watches_congr same, known, Bool.or_true]
  | false =>
    refine ⟨_, rfl, fun other => ?_⟩
    rw [watches, List.any_append, List.any_cons, List.any_nil, Bool.or_false, ← watches]

theorem unwatch_missing (missing : files.holds path = false) :
    watcher.unwatch files path = watcher := by
  obtain ⟨cause, found⟩ := FileSystem.canonical_of_missing missing
  rw [unwatch, found]

theorem unwatch_holds (holds : files.holds path = true) (other : FilePath) :
    (watcher.unwatch files path).watches other =
      (watcher.watches other && !other.same (files.normal path)) := by
  have pointwise (watched : FilePath) :
      (!watched.same (files.normal path) && other.same watched) =
        (other.same watched && !other.same (files.normal path)) := by
    cases here : other.same watched with
    | false => rw [Bool.and_false, Bool.false_and]
    | true => rw [Bool.and_true, Bool.true_and, FilePath.same, FilePath.same, same_iff.1 here]
  rw [unwatch, FileSystem.canonical_of_holds holds, watches, List.any_filter, watches,
    List.and_any_distrib_right]
  simp only [pointwise]

end Watcher

/-! Runs. -/

inductive WatchEvent where
  | watch (path : FilePath)
  | unwatch (path : FilePath)
  | deliver (delivery : Delivery)
  | poll
  | edit (change : FileSystem → FileSystem)

structure WatchState where
  files : FileSystem
  watcher : Watcher

namespace WatchState

def start (files : FileSystem) : WatchState := ⟨files, .idle⟩

def step (state : WatchState) : WatchEvent → Except LoadError Unit × WatchState
  | .watch path =>
    match state.watcher.watch state.files path with
    | .ok watcher => (.ok (), { state with watcher })
    | .error problem => (.error problem, state)
  | .unwatch path => (.ok (), { state with watcher := state.watcher.unwatch state.files path })
  | .deliver delivery =>
    (.ok (), { state with watcher.received := state.watcher.received ++ [delivery] })
  | .poll => (.ok (), { state with watcher := (state.watcher.poll state.files).2 })
  | .edit change => (.ok (), { state with files := change state.files })

def after (state : WatchState) (event : WatchEvent) : WatchState :=
  (state.step event).2

def run (state : WatchState) (events : List WatchEvent) : WatchState :=
  events.foldl after state

variable {state : WatchState} {path : FilePath}

theorem watch_ok_iff : (state.step (.watch path)).1 = .ok () ↔ state.files.holds path = true := by
  rw [step]
  cases there : state.files.holds path with
  | true =>
    obtain ⟨later, watched, -⟩ := state.watcher.watch_holds there
    rw [watched]
    exact iff_of_true rfl rfl
  | false =>
    obtain ⟨cause, failed⟩ := state.watcher.watch_missing there
    rw [failed]
    exact iff_of_false (nomatch ·) Bool.false_ne_true

theorem after_watch (holds : state.files.holds path = true) (other : FilePath) :
    (state.after (.watch path)).watcher.watches other =
      (state.watcher.watches other || other.same (state.files.normal path)) := by
  obtain ⟨later, watched, law⟩ := state.watcher.watch_holds holds
  rw [after, step, watched]
  exact law other

theorem after_failed {problem : LoadError} {event : WatchEvent}
    (failed : (state.step event).1 = .error problem) : state.after event = state := by
  cases event with
  | watch path =>
    rw [step] at failed
    rw [after, step]
    cases watched : state.watcher.watch state.files path with
    | ok later =>
      rw [watched] at failed
      contradiction
    | error cause => rfl
  | unwatch | deliver | poll | edit => contradiction

theorem after_unwatch (state : WatchState) (path other : FilePath) :
    (state.after (.unwatch path)).watcher.watches other =
      (state.watcher.watches other &&
        !(state.files.holds path && other.same (state.files.normal path))) := by
  change (state.watcher.unwatch state.files path).watches other = _
  cases there : state.files.holds path with
  | true => rw [Watcher.unwatch_holds there, Bool.true_and]
  | false => rw [Watcher.unwatch_missing there, Bool.false_and, Bool.not_false, Bool.and_true]

/-- Ending a watch gives up one path and no other. -/
def GivesUp (before after : WatchState) (path : FilePath) : Prop :=
  after.watcher.watches path = false ∧
    ∀ other, other.same path = false → after.watcher.watches other = before.watcher.watches other

theorem givesUp_iff (state : WatchState) (path registered : FilePath) :
    state.GivesUp (state.after (.unwatch path)) registered ↔
      state.files.holds path = true ∧ (state.files.normal path).same registered = true ∨
        state.watcher.watches registered = false ∧
          (state.files.holds path = true →
            state.watcher.watches (state.files.normal path) = false) := by
  have left := after_unwatch state path
  rw [GivesUp]
  cases there : state.files.holds path with
  | false =>
    simp only [there, Bool.false_and, Bool.not_false, Bool.and_true] at left
    simp [left]
  | true =>
    simp only [there, Bool.true_and] at left
    cases same : (state.files.normal path).same registered with
    | true =>
      have steps := same_iff.1 same
      have swapped : registered.same (state.files.normal path) = true := same_iff.2 steps.symm
      refine iff_of_true ⟨?_, fun other apart => ?_⟩ (Or.inl ⟨rfl, rfl⟩)
      · rw [left, swapped, Bool.not_true, Bool.and_false]
      · have elsewhere : other.same (state.files.normal path) = false := by
          rw [FilePath.same, steps]
          exact apart
        rw [left, elsewhere, Bool.not_false, Bool.and_true]
    | false =>
      have swapped : registered.same (state.files.normal path) = false := Store.same_symm same
      constructor
      · rintro ⟨ended, kept⟩
        refine Or.inr ⟨?_, fun _ => ?_⟩
        · rwa [left, swapped, Bool.not_false, Bool.and_true] at ended
        · rw [← kept _ same, left, Store.same_self, Bool.not_true, Bool.and_false]
      · rintro (⟨-, contra⟩ | ⟨unwatched, free⟩)
        · contradiction
        · refine ⟨by rw [left, unwatched, Bool.false_and], fun other _ => ?_⟩
          cases named : other.same (state.files.normal path) with
          | false => rw [left, named, Bool.not_false, Bool.and_true]
          | true => rw [left, Watcher.watches_congr named, free rfl, Bool.false_and]

end WatchState

/-- Ending a begun watch succeeds in every case. It gives up the registered path and no other if and
only if the path leads to the place that it led to at the beginning, or the registered path was
given up before and what the path leads to now, if anything, is not watched. A watch that cannot
begin changes nothing. -/
theorem begun_watch_ends {state : WatchState} {path : FilePath}
    (begun : (state.step (.watch path)).1 = .ok ()) (events : List WatchEvent) :
    let registered := state.files.normal path
    let watching := state.after (.watch path)
    let later := watching.run events
    let ended := later.after (.unwatch path)
    (∀ other, watching.watcher.watches other =
        (state.watcher.watches other || other.same registered)) ∧
      (later.step (.unwatch path)).1 = .ok () ∧
      (∀ other, ended.watcher.watches other = (later.watcher.watches other &&
        !(later.files.holds path && other.same (later.files.normal path)))) ∧
      (later.GivesUp ended registered ↔
        later.files.holds path = true ∧ (later.files.normal path).same registered = true ∨
          later.watcher.watches registered = false ∧
            (later.files.holds path = true →
              later.watcher.watches (later.files.normal path) = false)) ∧
      ∀ other problem, (later.step (.watch other)).1 = .error problem →
        later.after (.watch other) = later := by
  intro registered watching later ended
  have there := WatchState.watch_ok_iff.1 begun
  exact ⟨WatchState.after_watch there, rfl, WatchState.after_unwatch later path,
    WatchState.givesUp_iff later path registered,
    fun other problem failed => WatchState.after_failed failed⟩

def replacedFile : List WatchEvent :=
  [.edit (FileSystem.remove · ⟨"/snow.config.json"⟩),
    .edit (FileSystem.write · ⟨"/snow.config.json"⟩ "\x7b\x7d".toUTF8)]

/-- The watch of a file that was replaced ends. -/
theorem replaced_file_unwatched :
    ((WatchState.start loneFile).step (.watch ⟨"snow.config.json"⟩)).1 = .ok () ∧
      ((((WatchState.start loneFile).after (.watch ⟨"snow.config.json"⟩)).run
        replacedFile).after (.unwatch ⟨"snow.config.json"⟩)).watcher.watches
          (loneFile.normal ⟨"snow.config.json"⟩) = false := by
  have begun : ((WatchState.start loneFile).step (.watch ⟨"snow.config.json"⟩)).1 = .ok () :=
    WatchState.watch_ok_iff.2 (by decide +kernel)
  obtain ⟨-, -, -, ends, -⟩ := begun_watch_ends begun replacedFile
  have standing : (((WatchState.start loneFile).after (.watch ⟨"snow.config.json"⟩)).run
      replacedFile).files.holds ⟨"snow.config.json"⟩ = true := by decide +kernel
  have same : ((((WatchState.start loneFile).after (.watch ⟨"snow.config.json"⟩)).run
      replacedFile).files.normal ⟨"snow.config.json"⟩).same
        (loneFile.normal ⟨"snow.config.json"⟩) = true := by decide +kernel
  exact ⟨begun, (ends.2 (Or.inl ⟨standing, same⟩)).1⟩

/-- The watch of a file that was removed does not end, although the call to end it succeeds. -/
theorem removed_file_still_watched :
    ((WatchState.start loneFile).step (.watch ⟨"/snow.config.json"⟩)).1 = .ok () ∧
      (let later := ((WatchState.start loneFile).after (.watch ⟨"/snow.config.json"⟩)).after
        (.edit (FileSystem.remove · ⟨"/snow.config.json"⟩))
      (later.step (.unwatch ⟨"/snow.config.json"⟩)).1 = .ok () ∧
        (later.after (.unwatch ⟨"/snow.config.json"⟩)).watcher.watched =
          [⟨"/snow.config.json"⟩]) :=
  ⟨WatchState.watch_ok_iff.2 (by decide +kernel), rfl, by decide +kernel⟩

end DesignTokens

import DesignTokens.Files.Store
import DesignTokens.Proofs.Files.Places
import Mathlib.Data.List.Pairwise

/-!
Runs of a store, where the files may change in any way between two operations. A look-up adds at
most the one entry that it reads, a failed one adds nothing, and only invalidation takes entries
away; so every entry was read from the file under whose path it is kept.
-/

namespace DesignTokens

/-! Reading a configuration. -/

def BuiltFrom (files : FileSystem) (path : FilePath) (config : Config) : Prop :=
  ∃ format text settings built, ConfigFormat.ofPath? path = some format ∧
    files.readText path = .ok text ∧ parseSettings format path text = .ok settings ∧
    Config.ofSettings settings = .ok built ∧ config = built.withSource path

theorem mapError_ok {ε ε' α : Type} {wrap : ε → ε'} {result : Except ε α} {value : α}
    (succeeds : result.mapError wrap = .ok value) : result = .ok value := by
  cases result with
  | error problem => contradiction
  | ok found => exact congrArg _ (Except.ok.inj succeeds)

theorem bind_ok {ε α β : Type} {result : Except ε α} {next : α → Except ε β} {value : β}
    (succeeds : result >>= next = .ok value) :
    ∃ middle, result = .ok middle ∧ next middle = .ok value := by
  cases result with
  | error problem => contradiction
  | ok middle => exact ⟨middle, rfl, succeeds⟩

theorem readConfig_built {files : FileSystem} {path : FilePath} {config : Config}
    (read : readConfig files path = .ok config) : BuiltFrom files path config := by
  unfold readConfig at read
  split at read
  · contradiction
  · rename_i format known
    obtain ⟨text, content, read⟩ := bind_ok read
    obtain ⟨settings, parsed, read⟩ := bind_ok read
    obtain ⟨built, checked, read⟩ := bind_ok read
    exact ⟨format, text, settings, built, known, mapError_ok content, parsed, mapError_ok checked,
      (Except.ok.inj read).symm⟩

def LoadError.Concerns (path : FilePath) : LoadError → Prop
  | .unsupportedFormat other | .unreadable other _ | .malformed _ other => other = path
  | .unusable _ => True
  | .notFound _ => False

theorem mapError_error {ε ε' α : Type} {wrap : ε → ε'} {result : Except ε α} {problem : ε'}
    (fails : result.mapError wrap = .error problem) : ∃ cause, wrap cause = problem := by
  cases result with
  | error cause => exact ⟨cause, Except.error.inj fails⟩
  | ok value => contradiction

theorem bind_error {ε α β : Type} {result : Except ε α} {next : α → Except ε β} {problem : ε}
    (fails : result >>= next = .error problem) :
    result = .error problem ∨ ∃ middle, next middle = .error problem := by
  cases result with
  | error first => exact Or.inl (congrArg Except.error (Except.error.inj fails))
  | ok middle => exact Or.inr ⟨middle, fails⟩

theorem readConfig_concerns {files : FileSystem} {path : FilePath} {problem : LoadError}
    (broken : readConfig files path = .error problem) : problem.Concerns path := by
  unfold readConfig at broken
  split at broken
  · exact Except.error.inj broken ▸ rfl
  · rename_i format known
    rcases bind_error broken with content | ⟨text, broken⟩
    · obtain ⟨cause, rfl⟩ := mapError_error content
      rfl
    · rcases bind_error broken with parsed | ⟨settings, broken⟩
      · unfold parseSettings at parsed
        split at parsed
        · contradiction
        · exact Except.error.inj parsed ▸ rfl
      · rcases bind_error broken with checked | ⟨built, broken⟩
        · obtain ⟨cause, rfl⟩ := mapError_error checked
          trivial
        · contradiction

theorem BuiltFrom.source {files : FileSystem} {path : FilePath} {config : Config}
    (built : BuiltFrom files path config) : config.source = some path := by
  obtain ⟨_, _, _, inner, _, _, _, _, rfl⟩ := built
  rfl

namespace Store

/-! Look-ups. -/

def extended (store : Store) (key : FilePath) (config : Config) : Store :=
  ⟨store.entries ++ [(key, config)]⟩

theorem find?_eq_none {store : Store} {key : FilePath} :
    store.find? key = none ↔ ∀ entry ∈ store.entries, entry.1.same key = false := by
  rw [find?, Option.map_eq_none_iff, List.find?_eq_none]
  simp only [Bool.not_eq_true]

theorem keep_known {store : Store} {key : FilePath} {old : Config}
    (known : store.find? key = some old) (config : Config) : store.keep key config = (old, store) := by
  rw [keep, known]

theorem keep_absent {store : Store} {key : FilePath} (absent : store.find? key = none)
    (config : Config) : store.keep key config = (config, store.extended key config) := by
  rw [keep, absent, extended]

/-- How a path is looked up under its key: it is known, it is read now, or reading fails. -/
inductive LookUp (store : Store) (files : FileSystem) (key : FilePath) :
    Except LoadError (Config × Store) → Prop where
  | known {config : Config} (found : store.find? key = some config) :
    LookUp store files key (.ok (config, store))
  | read {config : Config} (absent : store.find? key = none)
    (built : readConfig files key = .ok config) :
    LookUp store files key (.ok (config, store.extended key config))
  | failed {problem : LoadError} (absent : store.find? key = none)
    (broken : readConfig files key = .error problem) : LookUp store files key (.error problem)

/-- What is read is kept under the key under which it was looked for, although the key is made
normal once more. -/
theorem getOrLoad_absent {store : Store} {files : FileSystem} {path : FilePath}
    (absent : store.find? (files.normal path) = none) :
    store.getOrLoad files path = (readConfig files (files.normal path)).map fun config =>
      (config, store.extended (files.normal path) config) := by
  have load : loadConfig files (.forFile (files.normal path)) =
      readConfig files (files.normal path) := rfl
  have kept : store.insert files (files.normal path) =
      fun config => (config, store.extended (files.normal path) config) := by
    funext config
    rw [insert, FileSystem.normal_normal, keep_absent absent]
  rw [getOrLoad, absent, load, kept]

theorem getOrLoad_lookUp (store : Store) (files : FileSystem) (path : FilePath) :
    store.LookUp files (files.normal path) (store.getOrLoad files path) := by
  cases found : store.find? (files.normal path) with
  | some config =>
    rw [getOrLoad, found]
    exact .known found
  | none =>
    rw [getOrLoad_absent found]
    cases read : readConfig files (files.normal path) with
    | error problem => exact .failed found read
    | ok config => exact .read found read

/-- How a document is looked up: a cached configuration covers it, there is no file for it, or the
nearest file is looked up. -/
inductive DocumentLookUp (store : Store) (files : FileSystem) (order : EntryOrder)
    (document : FilePath) (roots : List FilePath) :
    Except LoadError (Option Config × Store) → Prop where
  | covered {config : Config} (found : store.findCovering order document = some config) :
    DocumentLookUp store files order document roots (.ok (some config, store))
  | nothing (uncovered : store.findCovering order document = none)
    (absent : findNearestConfig files document roots = none) :
    DocumentLookUp store files order document roots (.ok (none, store))
  | nearest {path : FilePath} {result : Except LoadError (Config × Store)}
    (uncovered : store.findCovering order document = none)
    (near : findNearestConfig files document roots = some path)
    (lookUp : store.LookUp files (files.normal path) result) :
    DocumentLookUp store files order document roots
      (result.map fun (config, store) => (some config, store))

theorem forDocument_lookUp (store : Store) (files : FileSystem) (order : EntryOrder)
    (document : FilePath) (roots : List FilePath) :
    store.DocumentLookUp files order (files.normal document) roots
      (store.forDocument files order document roots) := by
  unfold forDocument
  dsimp only
  cases covering : store.findCovering order (files.normal document) with
  | some config => exact .covered covering
  | none =>
    cases near : findNearestConfig files (files.normal document) roots with
    | none => exact .nothing covering near
    | some path => exact .nearest covering near (store.getOrLoad_lookUp files path)

end Store

/-! Runs. -/

inductive StoreEvent where
  | get (path : FilePath)
  | getOrLoad (path : FilePath)
  | forDocument (order : EntryOrder) (document : FilePath) (roots : List FilePath)
  | insert (path : FilePath) (config : Config)
  | invalidate (path : FilePath)
  | invalidateAll
  | edit (change : FileSystem → FileSystem)

namespace StoreEvent

def looksUp : StoreEvent → Bool
  | .get _ | .getOrLoad _ | .forDocument _ _ _ => true
  | _ => false

def inserts : StoreEvent → Bool
  | .insert _ _ => true
  | _ => false

end StoreEvent

inductive StoreAnswer where
  | found (config : Option Config)
  | failed (problem : LoadError)
  | dropped (entries : Nat)
  | edited

def StoreAnswer.config? : StoreAnswer → Option Config
  | .found config => config
  | .failed _ | .dropped _ | .edited => none

structure StoreState where
  files : FileSystem
  store : Store

namespace StoreState

def start (files : FileSystem) : StoreState := ⟨files, .empty⟩

def answered (state : StoreState) :
    Except LoadError (Option Config × Store) → StoreAnswer × StoreState
  | .ok (config, store) => (.found config, { state with store })
  | .error problem => (.failed problem, state)

def step (state : StoreState) : StoreEvent → StoreAnswer × StoreState
  | .get path => (.found (state.store.get? state.files path), state)
  | .getOrLoad path =>
    state.answered
      ((state.store.getOrLoad state.files path).map fun (config, store) => (some config, store))
  | .forDocument order document roots =>
    state.answered (state.store.forDocument state.files order document roots)
  | .insert path config =>
    let (kept, store) := state.store.insert state.files path config
    (.found (some kept), { state with store })
  | .invalidate path =>
    let (dropped, store) := state.store.invalidate state.files path
    (.dropped dropped.toNat, { state with store })
  | .invalidateAll =>
    let (count, store) := state.store.invalidateAll
    (.dropped count, { state with store })
  | .edit change => (.edited, { state with files := change state.files })

def after (state : StoreState) (event : StoreEvent) : StoreState :=
  (state.step event).2

def run (state : StoreState) (events : List StoreEvent) : StoreState :=
  events.foldl after state

/-- What each operation of a run keeps, the run keeps. -/
theorem run_invariant (invariant : StoreState → Prop) {events : List StoreEvent}
    (keeps : ∀ event ∈ events, ∀ state, invariant state → invariant (state.after event))
    {state : StoreState} (holds : invariant state) : invariant (state.run events) := by
  induction events generalizing state with
  | nil => exact holds
  | cons event events ih =>
    obtain ⟨first, others⟩ := List.forall_mem_cons.1 keeps
    exact ih others (first state holds)

theorem after_insert (state : StoreState) (path : FilePath) (config : Config) :
    state.after (.insert path config) = state ∨
      state.store.find? (state.files.normal path) = none ∧
        state.after (.insert path config) =
          { state with store := state.store.extended (state.files.normal path) config } := by
  rw [after, step, Store.insert]
  cases found : state.store.find? (state.files.normal path) with
  | some old =>
    rw [Store.keep_known found]
    exact Or.inl rfl
  | none =>
    rw [Store.keep_absent found]
    exact Or.inr ⟨rfl, rfl⟩

/-- What a look-up does to the state: nothing, unless it reads a configuration. -/
inductive LookedUp (before : StoreState) : StoreAnswer × StoreState → Prop where
  | kept (config : Option Config) : LookedUp before (.found config, before)
  | read {key : FilePath} {config : Config} (absent : before.store.find? key = none)
    (built : readConfig before.files key = .ok config) :
    LookedUp before
      (.found (some config), { before with store := before.store.extended key config })
  | failed {key : FilePath} {problem : LoadError} (absent : before.store.find? key = none)
    (broken : readConfig before.files key = .error problem) :
    LookedUp before (.failed problem, before)

theorem answered_lookUp {state : StoreState} {key : FilePath}
    {result : Except LoadError (Config × Store)}
    (lookUp : state.store.LookUp state.files key result) :
    state.LookedUp (state.answered (result.map fun (config, store) => (some config, store))) := by
  cases lookUp with
  | known found => exact .kept _
  | read absent built => exact .read absent built
  | failed absent broken => exact .failed absent broken

theorem step_lookedUp (state : StoreState) {event : StoreEvent} (looks : event.looksUp = true) :
    state.LookedUp (state.step event) := by
  cases event with
  | get path => exact .kept _
  | getOrLoad path => exact answered_lookUp (state.store.getOrLoad_lookUp state.files path)
  | forDocument order document roots =>
    have looked := state.store.forDocument_lookUp state.files order document roots
    rw [step]
    generalize state.store.forDocument state.files order document roots = result at looked
    cases looked with
    | covered found => exact .kept _
    | nothing uncovered absent => exact .kept _
    | nearest uncovered near lookUp => exact answered_lookUp lookUp
  | insert | invalidate | invalidateAll | edit => contradiction

theorem looksUp_of_failed {state : StoreState} {event : StoreEvent} {problem : LoadError}
    (failed : (state.step event).1 = .failed problem) : event.looksUp = true := by
  cases event with
  | get | getOrLoad | forDocument => rfl
  | insert | invalidate | invalidateAll | edit => contradiction

end StoreState

/-! What holds of a store in every state. -/

namespace Store

/-- No two entries have the same key. -/
def Distinct (store : Store) : Prop :=
  store.entries.Pairwise fun entry later => entry.1.same later.1 = false

/-- Every configuration is kept under the path of its file. -/
def Sourced (store : Store) : Prop :=
  ∀ entry ∈ store.entries, entry.2.source = some entry.1

theorem Distinct.extended {store : Store} (distinct : store.Distinct) {key : FilePath}
    (absent : store.find? key = none) (config : Config) : (store.extended key config).Distinct := by
  refine List.pairwise_append.2 ⟨distinct, List.pairwise_singleton _ _, ?_⟩
  intro entry member later last
  rw [List.mem_singleton.1 last]
  exact find?_eq_none.1 absent entry member

theorem Distinct.sublist {store other : Store} (distinct : store.Distinct)
    (fewer : other.entries.Sublist store.entries) : other.Distinct :=
  List.Pairwise.sublist fewer distinct

theorem Sourced.extended {store : Store} (sourced : store.Sourced) {key : FilePath}
    {config : Config} (source : config.source = some key) :
    (store.extended key config).Sourced := by
  intro entry member
  rcases List.mem_append.1 member with old | new
  · exact sourced entry old
  · rw [List.mem_singleton.1 new]
    exact source

theorem same_self (path : FilePath) : path.same path = true :=
  decide_eq_true rfl

theorem same_symm {left right : FilePath} (different : left.same right = false) :
    right.same left = false := by
  rw [FilePath.same, decide_eq_false_iff_not] at different ⊢
  exact Ne.symm different

theorem Distinct.eq {store : Store} (distinct : store.Distinct) {key : FilePath}
    {entry other : FilePath × Config} (first : entry ∈ store.entries)
    (second : other ∈ store.entries) (here : entry.1.same key = true)
    (there : other.1.same key = true) : entry = other := by
  have symmetric : Std.Symm fun one two : FilePath × Config => one.1.same two.1 = false :=
    ⟨fun _ _ => same_symm⟩
  by_contra different
  have apart := List.Pairwise.forall distinct first second different
  have steps := (of_decide_eq_true here).trans (of_decide_eq_true there).symm
  exact of_decide_eq_false apart steps

end Store

namespace StoreState

theorem LookedUp.distinct {before : StoreState} (distinct : before.store.Distinct)
    {result : StoreAnswer × StoreState} (lookedUp : before.LookedUp result) :
    result.2.store.Distinct := by
  cases lookedUp with
  | kept config => exact distinct
  | read absent built => exact distinct.extended absent _
  | failed absent broken => exact distinct

theorem LookedUp.sourced {before : StoreState} (sourced : before.store.Sourced)
    {result : StoreAnswer × StoreState} (lookedUp : before.LookedUp result) :
    result.2.store.Sourced := by
  cases lookedUp with
  | kept config => exact sourced
  | read absent built => exact sourced.extended (readConfig_built built).source
  | failed absent broken => exact sourced

theorem after_distinct {state : StoreState} (distinct : state.store.Distinct)
    (event : StoreEvent) : (state.after event).store.Distinct := by
  cases event with
  | get | getOrLoad | forDocument => exact (state.step_lookedUp rfl).distinct distinct
  | insert path config =>
    rcases state.after_insert path config with kept | ⟨absent, added⟩
    · rw [kept]
      exact distinct
    · rw [added]
      exact distinct.extended absent config
  | invalidate path => exact distinct.sublist List.filter_sublist
  | invalidateAll => exact List.Pairwise.nil
  | edit change => exact distinct

theorem after_sourced {state : StoreState} (sourced : state.store.Sourced) {event : StoreEvent}
    (read : event.inserts = false) : (state.after event).store.Sourced := by
  cases event with
  | get | getOrLoad | forDocument => exact (state.step_lookedUp rfl).sourced sourced
  | insert path config => contradiction
  | invalidate path => exact fun entry member => sourced entry (List.mem_filter.1 member).1
  | invalidateAll => exact fun entry member => nomatch member
  | edit change => exact sourced

theorem start_run_distinct (files : FileSystem) (events : List StoreEvent) :
    ((start files).run events).store.Distinct := by
  apply run_invariant fun state => state.store.Distinct
  · exact fun event _ state distinct => after_distinct distinct event
  · exact List.Pairwise.nil

/-- What one operation may do. -/
structure StepLaw (before : StoreState) (event : StoreEvent) : Prop where
  /-- An operation fails only where it reads a file that is not known yet; then nothing changes. -/
  failed : ∀ problem, (before.step event).1 = .failed problem →
    before.after event = before ∧ ∃ key, before.store.find? key = none ∧
      readConfig before.files key = .error problem ∧ problem.Concerns key
  lookedUp : event.looksUp = true → before.after event = before ∨
    ∃ key config, before.store.find? key = none ∧ BuiltFrom before.files key config ∧
      before.step event =
        (.found (some config), { before with store := before.store.extended key config })
  added : ∀ entry ∈ (before.after event).store.entries,
    entry ∈ before.store.entries ∨ event.looksUp = true ∨ event.inserts = true
  dropped : ∀ entry ∈ before.store.entries, entry ∉ (before.after event).store.entries →
    event = .invalidateAll ∨
      ∃ path, event = .invalidate path ∧ entry.1.same (before.files.normal path) = true ∧
        ∀ other ∈ before.store.entries, other ≠ entry → other ∈ (before.after event).store.entries

theorem LookedUp.keeps {before : StoreState} {result : StoreAnswer × StoreState}
    (lookedUp : before.LookedUp result) {entry : FilePath × Config}
    (member : entry ∈ before.store.entries) : entry ∈ result.2.store.entries := by
  cases lookedUp with
  | kept config => exact member
  | read absent built => exact List.mem_append_left _ member
  | failed absent broken => exact member

theorem mem_after_insert {state : StoreState} {entry : FilePath × Config}
    (member : entry ∈ state.store.entries) (path : FilePath) (config : Config) :
    entry ∈ (state.after (.insert path config)).store.entries := by
  rcases state.after_insert path config with kept | ⟨absent, added⟩
  · rw [kept]
    exact member
  · rw [added]
    exact List.mem_append_left _ member

theorem mem_after_invalidate {state : StoreState} {entry : FilePath × Config} {path : FilePath} :
    entry ∈ (state.after (.invalidate path)).store.entries ↔
      entry ∈ state.store.entries ∧ entry.1.same (state.files.normal path) = false := by
  change entry ∈ state.store.entries.filter _ ↔ _
  rw [List.mem_filter, Bool.not_eq_true']

theorem dropped_alone {state : StoreState} (distinct : state.store.Distinct) {event : StoreEvent}
    {entry : FilePath × Config} (member : entry ∈ state.store.entries)
    (gone : entry ∉ (state.after event).store.entries) :
    event = .invalidateAll ∨
      ∃ path, event = .invalidate path ∧ entry.1.same (state.files.normal path) = true ∧
        ∀ other ∈ state.store.entries, other ≠ entry →
          other ∈ (state.after event).store.entries := by
  cases event with
  | get | getOrLoad | forDocument => exact absurd ((state.step_lookedUp rfl).keeps member) gone
  | insert path config => exact absurd (mem_after_insert member path config) gone
  | edit change => exact absurd member gone
  | invalidateAll => exact Or.inl rfl
  | invalidate path =>
    have named : entry.1.same (state.files.normal path) = true := by
      by_contra other
      exact gone (mem_after_invalidate.2 ⟨member, eq_false_of_ne_true other⟩)
    refine Or.inr ⟨path, rfl, named, fun other inside different => ?_⟩
    apply mem_after_invalidate.2
    refine ⟨inside, eq_false_of_ne_true fun same => ?_⟩
    exact different (distinct.eq inside member same named)

theorem stepLaw {state : StoreState} (distinct : state.store.Distinct) (event : StoreEvent) :
    state.StepLaw event where
  failed problem fails := by
    have looked := state.step_lookedUp (looksUp_of_failed fails)
    rw [after]
    generalize state.step event = result at fails looked
    cases looked with
    | kept config => contradiction
    | read absent built => contradiction
    | failed absent broken =>
      cases fails
      exact ⟨rfl, _, absent, broken, readConfig_concerns broken⟩
  lookedUp looks := by
    have looked := state.step_lookedUp looks
    rw [after]
    generalize state.step event = result at looked
    cases looked with
    | kept config => exact Or.inl rfl
    | read absent built => exact Or.inr ⟨_, _, absent, readConfig_built built, rfl⟩
    | failed absent broken => exact Or.inl rfl
  added entry member := by
    cases event with
    | get | getOrLoad | forDocument => exact Or.inr (Or.inl rfl)
    | insert path config => exact Or.inr (Or.inr rfl)
    | invalidate path => exact Or.inl (mem_after_invalidate.1 member).1
    | invalidateAll => exact nomatch member
    | edit change => exact Or.inl member
  dropped entry member gone := dropped_alone distinct member gone

end StoreState

/-- In every state that a store comes to by look-ups and invalidation, whatever happens to the files
in between, each configuration is kept under the path of its file, no two under one path, and the
next operation does no more than it may. -/
theorem store_run_lawful (files : FileSystem) {events : List StoreEvent}
    (read : ∀ event ∈ events, event.inserts = false) :
    ((StoreState.start files).run events).store.Sourced ∧
      ((StoreState.start files).run events).store.Distinct ∧
      ∀ event, ((StoreState.start files).run events).StepLaw event := by
  have sourced : ((StoreState.start files).run events).store.Sourced := by
    apply StoreState.run_invariant fun state => state.store.Sourced
    · exact fun event member state sourced => StoreState.after_sourced sourced (read event member)
    · exact fun entry member => nomatch member
  have distinct := StoreState.start_run_distinct files events
  exact ⟨sourced, distinct, StoreState.stepLaw distinct⟩

def twoDirectories : FileSystem :=
  ((FileSystem.vacant []).write ⟨"/a/snow.config.json"⟩
    "\x7b\"tokens\":\x7b\"gap\":\"1px\"\x7d\x7d".toUTF8).write ⟨"/b/snow.config.toml"⟩ "tokens".toUTF8

def brokenRun : List StoreEvent :=
  [.forDocument .loaded ⟨"/a/page.css"⟩ [], .edit (FileSystem.remove · ⟨"/a"⟩),
    .forDocument .loaded ⟨"/b/page.css"⟩ []]

theorem broken_run_lawful :
    (∀ event ∈ brokenRun, event.inserts = false) ∧
      ((StoreState.start twoDirectories).run brokenRun).store.Sourced ∧
      ((StoreState.start twoDirectories).run brokenRun).store.Distinct ∧
      (∀ event, ((StoreState.start twoDirectories).run brokenRun).StepLaw event) ∧
      ((StoreState.start twoDirectories).run brokenRun).store.paths =
        [⟨"/a/snow.config.json"⟩] := by
  have read : ∀ event ∈ brokenRun, event.inserts = false := by decide
  obtain ⟨sourced, distinct, lawful⟩ := store_run_lawful twoDirectories read
  exact ⟨read, sourced, distinct, lawful, by decide +kernel⟩

end DesignTokens
